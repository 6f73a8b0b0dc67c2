import Criteria.Numeric.Format

/-! Double-precision numbers as bit patterns, with the arithmetic that requests need. -/
namespace Criteria

/-- A single-precision number. -/
structure Binary32 where
  bits : UInt32
deriving DecidableEq, Repr

/-- A double-precision number. Equality of patterns is `=`, equality of numbers is `==`. -/
structure Binary64 where
  bits : UInt64
deriving DecidableEq, Repr

namespace Binary64

open Format (binary32 binary64)

variable (x y : Binary64)

def magnitude : Nat := x.bits.toNat % binary64.signWeight

def isNegative : Bool := binary64.signWeight ≤ x.bits.toNat

def isNaN : Bool := binary64.infinity < x.magnitude

def isFinite : Bool := x.magnitude < binary64.infinity

def isZero : Bool := x.magnitude = 0

theorem isNaN_eq_false {x : Binary64} (hx : x.isFinite = true) : x.isNaN = false := by
  simp only [isFinite, decide_eq_true_eq] at hx
  simp only [isNaN, decide_eq_false_iff_not]
  omega

/-- A not-a-number equals nothing, and the two zeros are equal. -/
def equal : Bool := !x.isNaN && !y.isNaN && (x.bits == y.bits || x.isZero && y.isZero)

instance : BEq Binary64 := ⟨equal⟩

/-- Strictly below zero, so neither a zero nor a not-a-number. -/
def belowZero : Bool := x.isNegative && !x.isZero && !x.isNaN

/-- Finite, with no fractional part. -/
def isIntegral : Bool :=
  x.isFinite && binary64.numerator x.magnitude % binary64.denominator x.magnitude == 0

/-- The number with the given sign and magnitude. -/
def ofMagnitude (negative : Bool) (magnitude : Nat) : Binary64 :=
  ⟨UInt64.ofNat (magnitude + if negative then binary64.signWeight else 0)⟩

def nan : Binary64 := ofMagnitude false binary64.quietNaN

/-- Nearest to an integer, ties to even. -/
def ofInt (n : Int) : Binary64 := ofMagnitude (n < 0) (binary64.nearest n.natAbs 1)

/-- Nearest to `digits * 10 ^ exponent`, ties to even. Values beyond the range of the format are
answered from their order of magnitude, without computing the power. -/
def ofDecimal (negative : Bool) (digits : Nat) (exponent : Int) : Binary64 :=
  ofMagnitude negative <|
    if digits = 0 then 0
    else if 310 < exponent then binary64.infinity
    else if exponent < -330 - (digits.log2 + 1) then 0
    else binary64.nearest (digits * powerOfTen exponent.toNat) (powerOfTen (-exponent).toNat)

/-- Every single-precision number is a double-precision one. -/
def ofBinary32 (s : Binary32) : Binary64 :=
  let magnitude := s.bits.toNat % binary32.signWeight
  let negative : Bool := binary32.signWeight ≤ s.bits.toNat
  if binary32.infinity < magnitude then nan
  else if magnitude = binary32.infinity then ofMagnitude negative binary64.infinity
  else
    ofMagnitude negative
      (binary64.nearest (binary32.numerator magnitude) (binary32.denominator magnitude))

/-- The nearest single-precision number, ties to even. -/
def toBinary32 : Binary32 :=
  let magnitude :=
    if x.isNaN then binary32.quietNaN
    else if x.isFinite then
      binary32.nearest (binary64.numerator x.magnitude) (binary64.denominator x.magnitude)
    else binary32.infinity
  ⟨UInt32.ofNat (magnitude + if x.isNegative && !x.isNaN then binary32.signWeight else 0)⟩

end Binary64

end Criteria
