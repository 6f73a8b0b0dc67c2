import Criteria.Json.Basic
import Mathlib.Data.List.Permutation

/-! The structure of JSON values: induction, the two forms of a condition, distinct keys. -/
namespace Criteria.Json

/-- The items of an array and the values of an object come with their hypotheses. -/
@[elab_as_elim]
theorem induction {motive : Json → Prop} (null : motive .null) (bool : ∀ b, motive (.bool b))
    (number : ∀ n, motive (.number n)) (string : ∀ s, motive (.string s))
    (array : ∀ js, (∀ j ∈ js, motive j) → motive (.array js))
    (object : ∀ es, (∀ e ∈ es, motive e.2) → motive (.object es)) (j : Json) : motive j := by
  refine Json.rec (motive_1 := motive) (motive_2 := fun js => ∀ j ∈ js, motive j)
    (motive_3 := fun es => ∀ e ∈ es, motive e.2) (motive_4 := fun e => motive e.2)
    null bool number string array object ?_ ?_ ?_ ?_ ?_ j
  · intro j hj
    cases hj
  · intro x xs hx hxs j hj
    rcases List.mem_cons.mp hj with rfl | hj
    · exact hx
    · exact hxs j hj
  · intro e he
    cases he
  · intro x xs hx hxs e he
    rcases List.mem_cons.mp he with rfl | he
    · exact hx
    · exact hxs e he
  · intro k x hx
    exact hx

theorem condition?_eq_some {es : List (String × Json)} {operator operand : Json}
    (h : (Json.object es).condition? = some (operator, operand)) :
    es = [("operator", operator), ("value", operand)] ∨
      es = [("value", operand), ("operator", operator)] := by
  match es with
  | [] | [_] | _ :: _ :: _ :: _ => simp [condition?] at h
  | [(k, x), (l, y)] =>
    rw [condition?] at h
    split at h
    · rename_i hk
      obtain ⟨rfl, rfl⟩ := hk
      simp_all
    · split at h
      · rename_i hk
        obtain ⟨rfl, rfl⟩ := hk
        simp_all
      · simp at h

theorem eq_pair_of_keys {es : Entries Json} {k l : String} (h : es.keys = [k, l]) :
    ∃ x y, es = [(k, x), (l, y)] := by
  match es with
  | [] | [_] | _ :: _ :: _ :: _ => simp [Entries.keys] at h
  | [(_, x), (_, y)] =>
    simp only [Entries.keys_cons, Entries.keys_nil, List.cons.injEq, and_true] at h
    obtain ⟨rfl, rfl⟩ := h
    exact ⟨x, y, rfl⟩

/-- A condition has just its two keys, whatever stands under them. -/
theorem condition?_eq_some_iff {es : Entries Json} {operator operand : Json} :
    (Json.object es).condition? = some (operator, operand) ↔
      es.keys.Perm ["operator", "value"] ∧ es.get? "operator" = some operator ∧
        es.get? "value" = some operand := by
  constructor
  · intro h
    rcases condition?_eq_some h with rfl | rfl
    · exact ⟨.refl _, rfl, rfl⟩
    · exact ⟨.swap .., rfl, rfl⟩
  · rintro ⟨hk, ho, hv⟩
    rcases List.perm_pair.mp hk with hk | hk <;> obtain ⟨x, y, rfl⟩ := eq_pair_of_keys hk <;>
      simp_all [Entries.get?, condition?]

theorem condition?_eq_none_iff {es : Entries Json} :
    (Json.object es).condition? = none ↔ ¬es.keys.Perm ["operator", "value"] := by
  constructor
  · intro h hk
    rcases List.perm_pair.mp hk with hk | hk <;> obtain ⟨x, y, rfl⟩ := eq_pair_of_keys hk <;>
      simp [condition?] at h
  · intro hk
    cases h : (Json.object es).condition? with
    | none => rfl
    | some c => exact (hk (condition?_eq_some_iff.mp h).1).elim

theorem operand_mem {es : List (String × Json)} {operator operand : Json}
    (h : (Json.object es).condition? = some (operator, operand)) : ("value", operand) ∈ es := by
  rcases condition?_eq_some h with rfl | rfl <;> simp

/-- The entries of a document that is read as a request. -/
def entries : Json → Entries Json
  | .object es => es
  | _ => []

theorem wellFormed_array_iff {js : List Json} :
    (Json.array js).WellFormed ↔ ∀ j ∈ js, j.WellFormed := by
  have hitems : WellFormedItems js ↔ ∀ j ∈ js, j.WellFormed := by
    induction js with
    | nil => simp [WellFormedItems]
    | cons j js ih => rw [WellFormedItems, ih, List.forall_mem_cons]
  rw [WellFormed, hitems]

theorem wellFormed_object_iff {es : Entries Json} :
    (Json.object es).WellFormed ↔ es.keys.Nodup ∧ ∀ e ∈ es, e.2.WellFormed := by
  have hentries : WellFormedEntries es ↔ ∀ e ∈ es, e.2.WellFormed := by
    induction es with
    | nil => simp [WellFormedEntries]
    | cons e es ih => rw [WellFormedEntries, ih, List.forall_mem_cons]
  rw [WellFormed, hentries]

theorem WellFormed.nodup_entries {j : Json} (h : j.WellFormed) : j.entries.keys.Nodup := by
  cases j with
  | object es => exact h.1
  | _ => exact List.nodup_nil

theorem WellFormed.of_mem_entries {j : Json} {e : String × Json} (h : j.WellFormed)
    (he : e ∈ j.entries) : e.2.WellFormed := by
  cases j with
  | object es => exact (wellFormed_object_iff.mp h).2 e he
  | _ => cases he

theorem WellFormed.of_get?_entries {i j : Json} {k : String} (h : j.WellFormed)
    (hi : j.entries.get? k = some i) : i.WellFormed := by
  have hmem := (Entries.get?_eq_some_iff_mem h.nodup_entries).mp hi
  exact h.of_mem_entries hmem

end Criteria.Json
