/-! Binary floating-point formats: the value of a bit pattern and rounding to the nearest one. -/
namespace Criteria

/-- `n * 2 ^ e`, or `n` if the exponent is negative. -/
def scaleUp (n : Nat) (e : Int) : Nat := n <<< e.toNat

def powerOfTen (n : Nat) : Nat := Nat.pow 10 n

/-- The quotient `n / d` rounded to a whole number, a half going to the even neighbour. -/
def divNearest (n d : Nat) : Nat :=
  let q := n / d
  let r := n % d
  if 2 * r < d ∨ 2 * r = d ∧ q % 2 = 0 then q else q + 1

/-- The exponent `e` with `2 ^ e ≤ n / d < 2 ^ (e + 1)`, for positive `n` and `d`. -/
def log2Ratio (n d : Nat) : Int :=
  let e : Int := n.log2 - d.log2
  if scaleUp n (-e) < scaleUp d e then e - 1 else e

/-- An interchange format: the precision, hidden bit included, and the width of the exponent. -/
structure Format where
  precision : Nat
  exponentBits : Nat

namespace Format

def binary32 : Format := ⟨24, 8⟩

def binary64 : Format := ⟨53, 11⟩

variable (f : Format)

/-- The width of the stored significand. -/
def fractionBits : Nat := f.precision - 1

/-- The weight of the significand's hidden bit, above the stored ones. -/
def hiddenWeight : Nat := 1 <<< f.fractionBits

/-- The weight of the sign bit; what lies below it is the *magnitude*. -/
def signWeight : Nat := 1 <<< (f.exponentBits + f.fractionBits)

/-- The magnitude of infinity; greater magnitudes are not numbers. -/
def infinity : Nat := (1 <<< f.exponentBits - 1) * f.hiddenWeight

/-- The magnitude of the quiet not-a-number. -/
def quietNaN : Nat := f.infinity + f.hiddenWeight / 2

/-- The exponent of the least positive number. -/
def leastExponent : Int := 3 - (1 <<< (f.exponentBits - 1) : Nat) - f.precision

/-- A finite magnitude stands for `significand * 2 ^ exponent`. -/
def significand (magnitude : Nat) : Nat :=
  if magnitude < f.hiddenWeight then magnitude
  else magnitude % f.hiddenWeight + f.hiddenWeight

def exponent (magnitude : Nat) : Int :=
  f.leastExponent + (magnitude / f.hiddenWeight - 1 : Nat)

/-- A finite magnitude as a quotient. -/
def numerator (magnitude : Nat) : Nat := scaleUp (f.significand magnitude) (f.exponent magnitude)

def denominator (magnitude : Nat) : Nat := scaleUp 1 (-f.exponent magnitude)

/-- The magnitude nearest to `n / d`, ties to even, and infinity past the greatest number. A
significand that rounds up to the next power of two carries into the exponent field. -/
def nearest (n d : Nat) : Nat :=
  if n = 0 then 0
  else
    let e := max f.leastExponent (log2Ratio n d - f.fractionBits)
    let m := divNearest (scaleUp n (-e)) (scaleUp d e)
    min f.infinity ((e - f.leastExponent).toNat * f.hiddenWeight + m)

end Format

end Criteria
