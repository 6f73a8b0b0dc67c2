import Criteria.Numeric.Binary64
import Mathlib.Data.Nat.Log

/-! Rounding whole numbers to double precision. -/
namespace Criteria

theorem divNearest_cases (n d : Nat) :
    (divNearest n d = n / d ∧ 2 * (n % d) ≤ d ∧ (2 * (n % d) = d → n / d % 2 = 0)) ∨
      (divNearest n d = n / d + 1 ∧ d ≤ 2 * (n % d) ∧
        (2 * (n % d) = d → (n / d + 1) % 2 = 0)) := by
  by_cases h : 2 * (n % d) < d ∨ 2 * (n % d) = d ∧ n / d % 2 = 0
  · refine .inl ⟨if_pos h, ?_, ?_⟩ <;> omega
  · refine .inr ⟨if_neg h, ?_, ?_⟩ <;> omega

theorem divNearest_le (n d : Nat) : divNearest n d ≤ n / d + 1 := by
  rcases divNearest_cases n d with ⟨hm, -⟩ | ⟨hm, -⟩ <;> omega

/-- A quotient by one has the exponent of the number. -/
theorem log2Ratio_one {n : Nat} (hn : n ≠ 0) : log2Ratio n 1 = n.log2 := by
  have hlow : 2 ^ n.log2 ≤ n := Nat.log2_self_le hn
  have hle : ¬scaleUp n (-(n.log2 : Int)) < scaleUp 1 n.log2 := by
    rw [scaleUp, scaleUp, Nat.shiftLeft_eq, Nat.shiftLeft_eq]
    simpa using hlow
  have hone : Nat.log2 1 = 0 := by decide
  simp only [log2Ratio, hone, Int.natCast_zero, Int.sub_zero]
  rw [if_neg hle]

namespace Format

theorem infinity_binary64 : binary64.infinity = 9218868437227405312 := rfl

theorem signWeight_binary64 : binary64.signWeight = 9223372036854775808 := rfl

/-- A number with 64 binary digits is a multiple of `2 ^ 11`, rounded. -/
theorem nearest_of_log2 {n : Nat} (hn : n ≠ 0) (h : n.log2 = 63) : binary64.nearest n 1 =
    min binary64.infinity (4886405595696988160 + divNearest n 2048) := by
  have hexponent : max binary64.leastExponent (log2Ratio n 1 - binary64.fractionBits) = 11 := by
    rw [log2Ratio_one hn, h]
    decide
  have hscale : scaleUp n (-11) = n := rfl
  have hunit : scaleUp 1 11 = 2048 := rfl
  have hplace : (11 - binary64.leastExponent).toNat * binary64.hiddenWeight =
      4886405595696988160 := rfl
  rw [nearest, if_neg hn]
  simp only [hexponent, hscale, hunit, hplace]

theorem nearest_eq {n : Nat} (low : 9223372036854775808 ≤ n) (high : n < 18446744073709551616) :
    binary64.nearest n 1 = 4886405595696988160 + divNearest n 2048 := by
  have hn : n ≠ 0 := by omega
  have hlog : n.log2 = 63 := by
    rw [Nat.log2_eq_iff hn]
    omega
  have hm := divNearest_le n 2048
  rw [nearest_of_log2 hn hlog, infinity_binary64]
  omega

/-- Such a number is far below the range of double precision. -/
theorem nearest_lt_infinity {n : Nat} (low : 9223372036854775808 ≤ n)
    (high : n < 18446744073709551616) : binary64.nearest n 1 < binary64.infinity := by
  have hm := divNearest_le n 2048
  rw [nearest_eq low high, infinity_binary64]
  omega

end Format

namespace Binary64

open Format (binary64 infinity_binary64 signWeight_binary64)

theorem bits_ofMagnitude {magnitude : Nat} (h : magnitude < binary64.infinity) :
    (ofMagnitude false magnitude).bits.toNat = magnitude := by
  rw [infinity_binary64] at h
  rw [ofMagnitude, if_neg Bool.false_ne_true, Nat.add_zero, UInt64.toNat_ofNat']
  omega

theorem magnitude_ofMagnitude {magnitude : Nat} (h : magnitude < binary64.infinity) :
    (ofMagnitude false magnitude).magnitude = magnitude := by
  rw [Binary64.magnitude, bits_ofMagnitude h, signWeight_binary64]
  rw [infinity_binary64] at h
  omega

theorem isFinite_ofMagnitude {magnitude : Nat} (h : magnitude < binary64.infinity) :
    (ofMagnitude false magnitude).isFinite = true := by
  rw [isFinite, magnitude_ofMagnitude h]
  exact decide_eq_true h

theorem ofInt_eq {n : Int} (hn : 0 ≤ n) :
    ofInt n = ofMagnitude false (binary64.nearest n.natAbs 1) := by
  rw [ofInt, decide_eq_false hn.not_gt]

/-- The integers that are read as floats are read as finite ones. -/
theorem isFinite_ofInt {n : Int} (low : 9223372036854775808 ≤ n)
    (high : n < 18446744073709551616) : (ofInt n).isFinite = true := by
  rw [ofInt_eq (by omega)]
  refine isFinite_ofMagnitude (Format.nearest_lt_infinity ?_ ?_) <;> omega

end Binary64

end Criteria
