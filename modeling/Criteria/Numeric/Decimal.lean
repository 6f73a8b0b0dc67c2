import Criteria.Numeric.Binary64

/-! Decimal text of double-precision numbers: the fewest digits that read back. -/
namespace Criteria

/-- The number `digits * 10 ^ exponent`. -/
structure Decimal where
  digits : Nat
  exponent : Int
deriving DecidableEq, Repr

namespace Decimal

/-- The quotients that round to one binary number: those around `value` between `low` and `high`,
in units of `unit = numerator / denominator`, the ends included or not. -/
structure Interval where
  low : Nat
  value : Nat
  high : Nat
  numerator : Nat
  denominator : Nat
  closed : Bool

/-- Half-way to the neighbours on either side, in quarters of the last place. The neighbour below a
power of two is only half as far away. -/
def Interval.ofMagnitude (f : Format) (magnitude : Nat) : Interval :=
  let m := f.significand magnitude
  let e := f.exponent magnitude - 2
  { low := if m = f.hiddenWeight ∧ f.leastExponent < f.exponent magnitude then 4 * m - 1
      else 4 * m - 2
    value := 4 * m
    high := 4 * m + 2
    numerator := scaleUp 1 e
    denominator := scaleUp 1 (-e)
    closed := m % 2 = 0 }

/-- The multiple of `10 ^ exponent` in the interval nearest to its value, if it holds one. Of two
multiples equally near the even one is taken. -/
def Interval.onGrid? (i : Interval) (exponent : Int) : Option Decimal :=
  let up := i.numerator * powerOfTen (-exponent).toNat
  let down := i.denominator * powerOfTen exponent.toNat
  let below := i.value * up / down
  let twice := 2 * (i.value * up % down)
  let fits (n : Nat) : Bool :=
    if i.closed then i.low * up ≤ n * down ∧ n * down ≤ i.high * up
    else i.low * up < n * down ∧ n * down < i.high * up
  let nearer := if twice < down ∨ twice = down ∧ below % 2 = 0 then below else below + 1
  let farther := if nearer = below then below + 1 else below
  if fits nearer then some ⟨nearer, exponent⟩
  else if fits farther then some ⟨farther, exponent⟩
  else none

/-- Exponents to try, from one above the leading digit of `m * 2 ^ e` down. The ratio is `log10 2`
rounded up; seventeen digits always suffice. -/
def gridExponents (m : Nat) (e : Int) : List Int :=
  let top := (m.log2 + 1 + e) * 30103 / 100000 + 1
  (List.range 24).map fun (i : Nat) => top - i

/-- The decimal on the coarsest grid that reads back as the given finite magnitude. -/
def shortest (f : Format) (magnitude : Nat) : Decimal :=
  if magnitude = 0 then ⟨0, 0⟩
  else
    let i := Interval.ofMagnitude f magnitude
    let grids := gridExponents (f.significand magnitude) (f.exponent magnitude)
    (grids.findSome? i.onGrid?).getD ⟨0, 0⟩

/-- The least and greatest exponents of the leading digit that are written without an exponent. -/
structure Layout where
  least : Int
  greatest : Int

/-- Positional text always has a fractional part; otherwise one digit stands before the point and
the exponent has a sign. -/
def Layout.text (layout : Layout) (d : Decimal) : String :=
  let ds := Nat.toDigits 10 d.digits
  let lead : Int := d.exponent + ds.length - 1
  let zeros (n : Int) := List.replicate n.toNat '0'
  if lead < layout.least ∨ layout.greatest < lead then
    let fraction := ds.drop 1
    let point := if fraction.isEmpty then [] else '.' :: fraction
    let sign := if lead < 0 then '-' else '+'
    String.ofList (ds.take 1 ++ point ++ 'e' :: sign :: Nat.toDigits 10 lead.natAbs)
  else if lead < 0 then
    String.ofList ('0' :: '.' :: zeros (-lead - 1) ++ ds)
  else
    let whole := ds ++ zeros (lead + 1 - ds.length)
    let fraction := ds.drop (lead + 1).toNat
    String.ofList (whole.take (lead + 1).toNat ++
      '.' :: if fraction.isEmpty then ['0'] else fraction)

end Decimal

/-- The text of a finite number, its sign kept for zero. -/
def Binary64.text (layout : Decimal.Layout) (x : Binary64) : String :=
  (if x.isNegative then "-" else "") ++
    layout.text (Decimal.shortest Format.binary64 x.magnitude)

end Criteria
