import Criteria.Numeric.Binary64
import Mathlib.Algebra.Order.Field.Power
import Mathlib.Algebra.Order.Field.Rat
import Mathlib.Data.Nat.Cast.Field
import Mathlib.Tactic.Positivity

/-! Finite bit patterns as rational numbers. -/
namespace Criteria

theorem scaleUp_eq (n : Nat) (e : Int) : scaleUp n e = n * 2 ^ e.toNat := Nat.shiftLeft_eq n _

namespace Format

variable {f : Format} {m : Nat}

/-- The number that a finite magnitude stands for. -/
def toRat (f : Format) (magnitude : Nat) : ℚ :=
  f.significand magnitude * 2 ^ f.exponent magnitude

theorem denominator_pos : 0 < f.denominator m := by
  rw [denominator, scaleUp_eq, one_mul]
  positivity

theorem toRat_eq_div : f.toRat m = f.numerator m / f.denominator m := by
  rw [toRat, numerator, denominator, scaleUp_eq, scaleUp_eq, one_mul]
  obtain ⟨n, hn | hn⟩ := (f.exponent m).eq_nat_or_neg
  · rw [hn]
    simp
  · rw [hn]
    simp [div_eq_mul_inv]

theorem significand_eq_zero_iff : f.significand m = 0 ↔ m = 0 := by
  have hw : 0 < f.hiddenWeight := by
    rw [hiddenWeight, Nat.shiftLeft_eq, one_mul]
    positivity
  rw [significand]
  split <;> omega

theorem toRat_eq_zero (hm : m = 0) : f.toRat m = 0 := by
  rw [toRat, significand_eq_zero_iff.mpr hm, Nat.cast_zero, zero_mul]

theorem toRat_pos (hm : m ≠ 0) : 0 < f.toRat m := by
  have hs : 0 < f.significand m := Nat.pos_of_ne_zero (mt significand_eq_zero_iff.mp hm)
  rw [toRat]
  positivity

/-- Whether a magnitude is a whole number shows in a remainder. -/
theorem toRat_eq_int_iff : (∃ n : ℤ, f.toRat m = n) ↔ f.numerator m % f.denominator m = 0 := by
  have hd : (f.denominator m : ℚ) ≠ 0 := Nat.cast_ne_zero.mpr denominator_pos.ne'
  rw [toRat_eq_div, ← Nat.dvd_iff_mod_eq_zero]
  constructor
  · rintro ⟨n, hn⟩
    have h : (f.numerator m : ℚ) = n * f.denominator m := (div_eq_iff hd).mp hn
    have h : (f.numerator m : ℤ) = n * f.denominator m := mod_cast h
    exact Int.natCast_dvd_natCast.mp ⟨n, h.trans (mul_comm _ _)⟩
  · intro h
    refine ⟨(f.numerator m / f.denominator m : Nat), ?_⟩
    rw [Int.cast_natCast, Nat.cast_div h hd]

end Format

namespace Binary64

open Format (binary64)

variable {x : Binary64}

/-- The number that a finite pattern stands for; both zeros stand for zero. -/
def toRat (x : Binary64) : ℚ :=
  if x.isNegative then -binary64.toRat x.magnitude else binary64.toRat x.magnitude

theorem isIntegral_iff : x.isIntegral = true ↔ x.isFinite = true ∧ ∃ n : ℤ, x.toRat = n := by
  rw [isIntegral, Bool.and_eq_true, beq_iff_eq, ← Format.toRat_eq_int_iff, toRat]
  refine and_congr_right fun _ => ?_
  cases x.isNegative with
  | false => rfl
  | true =>
    constructor
    · rintro ⟨n, hn⟩
      exact ⟨-n, by simp [hn]⟩
    · rintro ⟨n, hn⟩
      exact ⟨-n, by simp [← hn]⟩

theorem belowZero_iff (hx : x.isFinite = true) : x.belowZero = true ↔ x.toRat < 0 := by
  rw [belowZero, isNaN_eq_false hx, isZero, toRat]
  by_cases hz : x.magnitude = 0
  · rw [Format.toRat_eq_zero hz]
    simp [hz]
  · have h : 0 < binary64.toRat x.magnitude := Format.toRat_pos hz
    cases x.isNegative with
    | false => simp [h.le]
    | true => simp [h, hz]

end Binary64

end Criteria
