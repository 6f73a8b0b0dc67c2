import Criteria.Numeric.Binary64

/-! Equality of floats: only a not-a-number is not equal to itself, only the zeros differ unseen. -/
namespace Criteria.Binary64

variable {x y : Binary64}

theorem beq_iff : (x == y) = true ↔
    x.isNaN = false ∧ y.isNaN = false ∧ (x = y ∨ x.isZero = true ∧ y.isZero = true) := by
  have hbits : x.bits = y.bits ↔ x = y := by
    cases x
    cases y
    simp
  have hequal : (x == y) = equal x y := rfl
  rw [hequal, equal]
  simp [hbits, and_assoc]

theorem beq_self_iff : (x == x) = true ↔ x.isNaN = false := by
  simp [beq_iff]

instance : PartialEquivBEq Binary64 where
  symm {x y} h := by
    obtain ⟨hx, hy, h⟩ := beq_iff.mp h
    exact beq_iff.mpr ⟨hy, hx, h.imp Eq.symm And.symm⟩
  trans {x y z} hxy hyz := by
    obtain ⟨hxn, -, hxy⟩ := beq_iff.mp hxy
    obtain ⟨-, hzn, hyz⟩ := beq_iff.mp hyz
    refine beq_iff.mpr ⟨hxn, hzn, ?_⟩
    rcases hxy with rfl | ⟨hx, hy⟩
    · exact hyz
    · rcases hyz with rfl | ⟨-, hz⟩
      · exact .inr ⟨hx, hy⟩
      · exact .inr ⟨hx, hz⟩

theorem beq_of_isZero (hx : x.isZero = true) (hy : y.isZero = true) : (x == y) = true := by
  have hfinite : ∀ z : Binary64, z.isZero = true → z.isFinite = true := by
    intro z hz
    have hz : z.magnitude = 0 := of_decide_eq_true hz
    rw [isFinite, hz]
    rfl
  exact beq_iff.mpr
    ⟨isNaN_eq_false (hfinite x hx), isNaN_eq_false (hfinite y hy), .inr ⟨hx, hy⟩⟩

/-- A zero of either sign is whole, and below nothing. -/
theorem isIntegral_congr (h : (x == y) = true) : x.isIntegral = y.isIntegral := by
  obtain ⟨-, -, rfl | ⟨hx, hy⟩⟩ := beq_iff.mp h
  · rfl
  · have hx : x.magnitude = 0 := of_decide_eq_true hx
    have hy : y.magnitude = 0 := of_decide_eq_true hy
    simp only [isIntegral, isFinite, hx, hy]

theorem belowZero_congr (h : (x == y) = true) : x.belowZero = y.belowZero := by
  obtain ⟨-, -, rfl | ⟨hx, hy⟩⟩ := beq_iff.mp h
  · rfl
  · simp [belowZero, hx, hy]

example : ofMagnitude false 0 ≠ ofMagnitude true 0 ∧
    (ofMagnitude false 0 == ofMagnitude true 0) = true := by decide

end Criteria.Binary64
