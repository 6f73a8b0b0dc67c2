import Criteria.Proofs.Numeric.Rational
import Criteria.Proofs.Numeric.Rounding
import Mathlib.Tactic.Linarith

/-! Integers of 64 bits are rounded to the nearest number of double precision. -/
namespace Criteria

section

variable {d : Nat}

/-- A rounded quotient errs by half a unit at most, and it is even if it errs by so much. -/
theorem divNearest_error (n : Nat) (hd : 0 < d) : 2 * |(d : ℤ) * divNearest n d - n| ≤ d ∧
    (2 * |(d : ℤ) * divNearest n d - n| = d → divNearest n d % 2 = 0) := by
  have hdiv : (d : ℤ) * (n / d : Nat) + (n % d : Nat) = n := mod_cast Nat.div_add_mod n d
  have hlt : n % d < d := Nat.mod_lt n hd
  rcases divNearest_cases n d with ⟨hm, hrem, heven⟩ | ⟨hm, hrem, heven⟩
  · have herror : (d : ℤ) * divNearest n d - n = -(n % d : Nat) := by
      rw [hm]
      linarith
    rw [herror, abs_neg, Nat.abs_cast, hm]
    exact ⟨mod_cast hrem, fun h => heven (mod_cast h)⟩
  · have herror : (d : ℤ) * divNearest n d - n = (d - n % d : Nat) := by
      rw [hm, Nat.cast_succ, Nat.cast_sub hlt.le, mul_add_one]
      linarith
    rw [herror, Nat.abs_cast, hm]
    refine ⟨?_, fun h => heven ?_⟩ <;> omega

/-- Two multiples lie at least one unit apart. -/
theorem le_dist_add_dist (n d : Nat) {k m : ℤ} (h : k ≠ m) : (d : ℤ) ≤ |d * k - n| + |d * m - n| := by
  have hone : 1 ≤ |k - m| := Int.one_le_abs (sub_ne_zero.mpr h)
  calc (d : ℤ) ≤ d * |k - m| := le_mul_of_one_le_right d.cast_nonneg hone
    _ = |(d * k - n) - (d * m - n)| := by
      rw [sub_sub_sub_cancel_right, ← mul_sub, abs_mul, Nat.abs_cast]
    _ ≤ |d * k - n| + |d * m - n| := abs_sub _ _

theorem divNearest_least (n : Nat) (hd : 0 < d) (k : ℤ) :
    |(d : ℤ) * divNearest n d - n| ≤ |(d : ℤ) * k - n| := by
  by_cases hk : k = divNearest n d
  · rw [hk]
  · have herror := (divNearest_error n hd).1
    have happart := le_dist_add_dist n d hk
    omega

theorem divNearest_even {n : Nat} (hd : 0 < d) {k : ℤ} (hk : k ≠ divNearest n d)
    (htie : |(d : ℤ) * divNearest n d - n| = |(d : ℤ) * k - n|) : divNearest n d % 2 = 0 := by
  obtain ⟨herror, heven⟩ := divNearest_error n hd
  have happart := le_dist_add_dist n d hk
  exact heven (by omega)

end

namespace Format

theorem hiddenWeight_binary64 : binary64.hiddenWeight = 4503599627370496 := rfl

theorem leastExponent_binary64 : binary64.leastExponent = -1074 := rfl

theorem significand_lt (m : Nat) : binary64.significand m < 9007199254740992 := by
  rw [significand, hiddenWeight_binary64]
  split <;> omega

/-- Far from zero the numbers of double precision lie at least `2 ^ 11` apart. -/
theorem toRat_eq_multiple {m : Nat} (h : 9223372036854775808 ≤ binary64.toRat m) :
    ∃ k : ℤ, binary64.toRat m = 2048 * k := by
  have hexponent : 11 ≤ binary64.exponent m := by
    by_contra hlt
    have hsignificand : (binary64.significand m : ℚ) < 9007199254740992 :=
      mod_cast significand_lt m
    have hpower : (2 : ℚ) ^ binary64.exponent m ≤ 2 ^ (10 : ℤ) :=
      zpow_le_zpow_right₀ one_le_two (by omega)
    have hlow : binary64.toRat m < 9223372036854775808 := by
      calc binary64.toRat m
          ≤ binary64.significand m * 2 ^ (10 : ℤ) :=
            mul_le_mul_of_nonneg_left hpower (Nat.cast_nonneg _)
        _ < 9007199254740992 * 2 ^ (10 : ℤ) := mul_lt_mul_of_pos_right hsignificand (by positivity)
        _ = 9223372036854775808 := by norm_num
    exact hlow.not_ge h
  obtain ⟨e, he⟩ := Int.le.dest hexponent
  refine ⟨binary64.significand m * 2 ^ e, ?_⟩
  have hunit : (2 : ℚ) ^ (11 : ℤ) = 2048 := by norm_num
  rw [toRat, ← he, zpow_add₀ two_ne_zero, hunit, zpow_natCast, mul_left_comm]
  norm_cast

/-- A significand of full length, or the next power of two, above the exponent of `2 ^ 63`. -/
theorem toRat_of_significand {m : Nat} (low : 4503599627370496 ≤ m)
    (high : m ≤ 9007199254740992) : binary64.toRat (4886405595696988160 + m) = 2048 * m := by
  rcases high.lt_or_eq with hlt | rfl
  · have hsignificand : binary64.significand (4886405595696988160 + m) = m := by
      rw [significand, hiddenWeight_binary64, if_neg (by omega)]
      omega
    have hexponent : binary64.exponent (4886405595696988160 + m) = 11 := by
      rw [exponent, hiddenWeight_binary64, leastExponent_binary64]
      omega
    rw [toRat, hsignificand, hexponent, mul_comm]
    norm_num
  · have hsignificand : binary64.significand (4886405595696988160 + 9007199254740992) =
        4503599627370496 := rfl
    have hexponent : binary64.exponent (4886405595696988160 + 9007199254740992) = 12 := rfl
    rw [toRat, hsignificand, hexponent]
    norm_num

end Format

namespace Binary64

open Format (binary64 infinity_binary64 signWeight_binary64)

variable {x y : Binary64} {n : Nat}

/-- A finite number as near to `q` as any; if another one is as near, its last bit is zero. -/
structure IsNearest (x : Binary64) (q : ℚ) : Prop where
  finite : x.isFinite = true
  least : ∀ y : Binary64, y.isFinite = true → |x.toRat - q| ≤ |y.toRat - q|
  even : ∀ y : Binary64, y.isFinite = true → y.toRat ≠ x.toRat → |x.toRat - q| = |y.toRat - q| →
    x.bits.toNat % 2 = 0

theorem toRat_ofMagnitude {magnitude : Nat} (h : magnitude < binary64.infinity) :
    (ofMagnitude false magnitude).toRat = binary64.toRat magnitude := by
  have hsign : (ofMagnitude false magnitude).isNegative = false := by
    rw [infinity_binary64] at h
    rw [isNegative, bits_ofMagnitude h, signWeight_binary64, decide_eq_false_iff_not]
    omega
  rw [toRat, hsign, magnitude_ofMagnitude h, if_neg Bool.false_ne_true]

theorem bits_ofInt (low : 9223372036854775808 ≤ n) (high : n < 18446744073709551616) :
    (ofInt n).bits.toNat = 4886405595696988160 + divNearest n 2048 := by
  have hlt := Format.nearest_lt_infinity low high
  rw [ofInt_eq n.cast_nonneg, Int.natAbs_natCast, bits_ofMagnitude hlt, Format.nearest_eq low high]

theorem toRat_ofInt (low : 9223372036854775808 ≤ n) (high : n < 18446744073709551616) :
    (ofInt n).toRat = 2048 * divNearest n 2048 := by
  have hlt := Format.nearest_lt_infinity low high
  rw [ofInt_eq n.cast_nonneg, Int.natAbs_natCast, toRat_ofMagnitude hlt, Format.nearest_eq low high]
  rcases divNearest_cases n 2048 with ⟨hm, -⟩ | ⟨hm, -⟩ <;>
    exact Format.toRat_of_significand (by omega) (by omega)

theorem toRat_eq_multiple (h : 9223372036854775808 ≤ y.toRat) : ∃ k : ℤ, y.toRat = 2048 * k := by
  have hmagnitude : 0 ≤ binary64.toRat y.magnitude := by
    rw [Format.toRat]
    positivity
  rw [toRat] at h ⊢
  split at h
  · linarith
  · rename_i hsign
    rw [if_neg hsign]
    exact Format.toRat_eq_multiple h

theorem dist_le_multiple (n : Nat) (k : ℤ) :
    |2048 * (divNearest n 2048 : ℚ) - n| ≤ |2048 * (k : ℚ) - n| := by
  have hleast : |2048 * (divNearest n 2048 : ℤ) - n| ≤ |2048 * k - n| :=
    divNearest_least n (by decide) k
  exact mod_cast hleast

/-- What lies below `2 ^ 63` is further away than `2 ^ 63` is. -/
theorem dist_lt_of_toRat_lt (low : 9223372036854775808 ≤ n) (hy : y.toRat < 9223372036854775808) :
    |2048 * (divNearest n 2048 : ℚ) - n| < |y.toRat - n| := by
  have hleast := dist_le_multiple n 4503599627370496
  have hn : (9223372036854775808 : ℚ) ≤ n := mod_cast low
  have hfirst : |2048 * ((4503599627370496 : ℤ) : ℚ) - n| = n - 9223372036854775808 := by
    rw [Int.cast_ofNat, abs_sub_comm, abs_of_nonneg] <;> linarith
  have hlast : (n : ℚ) - y.toRat ≤ |y.toRat - n| := by
    rw [abs_sub_comm]
    exact le_abs_self _
  linarith

/-- An integer of 64 bits that has no sign becomes the nearest number of double precision. -/
theorem isNearest_ofInt (low : 9223372036854775808 ≤ n) (high : n < 18446744073709551616) :
    (ofInt n).IsNearest n := by
  have hx := toRat_ofInt low high
  refine ⟨isFinite_ofInt (mod_cast low) (mod_cast high), ?_, ?_⟩
  · intro y _
    rw [hx]
    rcases lt_or_ge y.toRat 9223372036854775808 with hy | hy
    · exact (dist_lt_of_toRat_lt low hy).le
    · obtain ⟨k, hk⟩ := toRat_eq_multiple hy
      rw [hk]
      exact dist_le_multiple n k
  · intro y _ hne htie
    rw [hx] at hne htie
    rcases lt_or_ge y.toRat 9223372036854775808 with hy | hy
    · exact ((dist_lt_of_toRat_lt low hy).ne htie).elim
    · obtain ⟨k, hk⟩ := toRat_eq_multiple hy
      rw [hk] at hne htie
      have hk : k ≠ divNearest n 2048 := by
        rintro rfl
        exact hne rfl
      have heven := divNearest_even (by decide) hk (mod_cast htie)
      rw [bits_ofInt low high]
      omega

/-- Halfway between two numbers. -/
example : ofInt 9223372036854776832 = ofInt 9223372036854775808 := by decide +kernel

end Binary64

end Criteria
