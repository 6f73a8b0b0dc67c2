import Criteria.Proofs.Numeric.Rational
import Criteria.Validation

/-! When a limit or an offset is a whole number, and what a report says if it is not. -/
namespace Criteria

/-- An integer, or a finite float without a fraction, stands for a whole number. -/
def Value.Denotes : Value → ℤ → Prop
  | .int m, n => m.toInt = n
  | .float x, n => x.isFinite = true ∧ x.toRat = n
  | _, _ => False

variable {v : Value} {m n : ℤ}

theorem Value.Denotes.unique (hm : v.Denotes m) (hn : v.Denotes n) : m = n := by
  cases v with
  | int k => exact hm.symm.trans hn
  | float x => exact Int.cast_injective (hm.2.symm.trans hn.2)
  | _ => exact hm.elim

namespace Validation

variable {base : Option Path} {key : String} {nonInteger negative : Code}

theorem bound_int {k : Int64} : bound base key nonInteger negative (.int k) =
    if k.toInt < 0 then [⟨fieldName base key, negative, "must not be negative"⟩] else [] := by
  have h : k < 0 ↔ k.toInt < 0 := Int64.lt_iff_toInt_lt
  simp only [bound, h]

theorem bound_float {x : Binary64} (hx : x.isFinite = true) (hn : x.toRat = n) :
    bound base key nonInteger negative (.float x) =
      if n < 0 then [⟨fieldName base key, negative, "must not be negative"⟩] else [] := by
  have hi : x.isIntegral = true := Binary64.isIntegral_iff.mpr ⟨hx, n, hn⟩
  have hb : x.belowZero = true ↔ n < 0 := by
    rw [Binary64.belowZero_iff hx, hn]
    exact Int.cast_lt_zero
  simp only [bound, hi, hb, if_true]

/-- A whole number is found to be negative or nothing is found. -/
theorem bound_of_denotes (h : v.Denotes n) : bound base key nonInteger negative v =
    if n < 0 then [⟨fieldName base key, negative, "must not be negative"⟩] else [] := by
  cases v with
  | int k =>
    obtain rfl : k.toInt = n := h
    exact bound_int
  | float x => exact bound_float h.1 h.2
  | _ => exact h.elim

example : bound base key nonInteger negative (.float (.ofMagnitude true 0)) = [] := rfl

theorem bound_of_not_denotes (h : ∀ n, ¬v.Denotes n) : bound base key nonInteger negative v =
    [⟨fieldName base key, nonInteger, "expected an integer, got " ++ v.kind.name⟩] := by
  cases v with
  | int k => exact absurd rfl (h k.toInt)
  | float x =>
    have hi : ¬x.isIntegral = true := by
      rw [Binary64.isIntegral_iff]
      rintro ⟨hx, n, hn⟩
      exact h n ⟨hx, hn⟩
    simp only [bound, hi]
    rfl
  | _ => rfl

end Validation

end Criteria
