import Criteria.Json.Basic

/-! Reading JSON numbers. -/
namespace Criteria.Json

/-- The number `digits * 10 ^ exponent` as written, with or without a fraction or an exponent. -/
structure Literal where
  negative : Bool
  digits : Nat
  exponent : Int
  isWhole : Bool

namespace Literal

/-- Reads what follows the digits before and after the point: nothing, or a power of ten. -/
def power? : List Char → Option Int
  | [] => some 0
  | e :: cs =>
    if e = 'e' ∨ e = 'E' then
      match cs with
      | '+' :: ds => digits? ds
      | '-' :: ds => (digits? ds).map (- ·)
      | ds => digits? ds
    else none
where
  digits? (ds : List Char) : Option Int :=
    if ds.isEmpty || !ds.all Char.isDigit then none else some (Nat.ofDigitChars 10 ds 0)

/-- Reads a number without its sign. A leading zero stands alone before the point. -/
def unsigned? (negative : Bool) (cs : List Char) : Option Literal :=
  let whole := cs.takeWhile Char.isDigit
  if whole.isEmpty || (1 < whole.length && whole.head? == some '0') then none
  else
    match cs.dropWhile Char.isDigit with
    | [] => some ⟨negative, Nat.ofDigitChars 10 whole 0, 0, true⟩
    | '.' :: rest =>
      let fraction := rest.takeWhile Char.isDigit
      if fraction.isEmpty then none
      else do
        let e ← power? (rest.dropWhile Char.isDigit)
        some ⟨negative, Nat.ofDigitChars 10 (whole ++ fraction) 0, e - fraction.length, false⟩
    | rest => do
      let e ← power? rest
      some ⟨negative, Nat.ofDigitChars 10 whole 0, e, false⟩

def ofText? : List Char → Option Literal
  | '-' :: cs => unsigned? true cs
  | cs => unsigned? false cs

/-- A whole number is an integer if it fits, save that minus zero is a float. All else is the
nearest float, if that is finite. -/
def number? (l : Literal) : Option Number :=
  let n : Int := if l.negative then -l.digits else l.digits
  if h : -9223372036854775808 ≤ n ∧ n < 18446744073709551616 ∧ l.isWhole ∧
      ¬(l.negative ∧ n = 0) then
    some (.int n ⟨h.1, h.2.1⟩)
  else
    let x := Binary64.ofDecimal l.negative l.digits l.exponent
    if h : x.isFinite = true then some (.float x h) else none

end Literal

end Criteria.Json
