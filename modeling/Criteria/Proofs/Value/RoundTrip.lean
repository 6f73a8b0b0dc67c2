import Criteria.Proofs.Reading.Value
import Criteria.Proofs.Value.Basic
import Criteria.Value.Printer

/-! The values that JSON gives back as they were. -/
namespace Criteria.Value

/-- Values that have no JSON form of their own: each is written as something else is. -/
def Lossy : Value → Prop
  | .timestamp _ | .uuid _ => True
  | .float x => x.isFinite = false
  | .object es =>
    (Entries.keys es).Perm ["operator", "value"] ∧ ∃ o, Entries.get? "operator" es = some (.string o)
  | _ => False

def Canonical (v : Value) : Prop := ∀ w, v.Holds w → ¬w.Lossy

theorem ofNumber_ofInt64 (n : Int64) : ofNumber (.ofInt64 n) = .int n := by
  have hn : n.toInt < 9223372036854775808 := n.toInt_lt
  rw [Json.Number.ofInt64, ofNumber, if_pos hn, Int64.ofInt_toInt]

theorem ofJson_comparison (o : String) (j : Json) :
    ofJson (.object [("operator", .string o), ("value", j)]) = .comparison o (ofJson j) := by
  rw [ofJson_object]
  rfl

/-- An object stays an object unless it has the form of a comparison. -/
theorem ofJson_object_eq_iff {es : Entries Json} :
    ofJson (.object es) = .object es ↔ ¬(object es).Lossy := by
  rw [ofJson_object]
  cases hc : (Json.object es).condition? with
  | none =>
    have hk := Json.condition?_eq_none_iff.mp hc
    exact iff_of_true rfl fun h => hk h.1
  | some c =>
    obtain ⟨operator, operand⟩ := c
    obtain ⟨hk, ho, -⟩ := Json.condition?_eq_some_iff.mp hc
    cases operator with
    | string o =>
      refine iff_of_false ?_ (not_not_intro ⟨hk, o, ho⟩)
      intro h
      cases h
    | _ =>
      refine iff_of_true rfl ?_
      rintro ⟨-, o, ho'⟩
      rw [ho] at ho'
      cases ho'

/-- Writing a value and reading it again changes nothing just if nothing that it holds is lossy. -/
theorem ofJson_toJson_eq_iff (v : Value) : ofJson v.toJson = v ↔ v.Canonical := by
  rw [Canonical]
  induction v using Value.induction with
  | null | bool _ | text _ =>
    rw [forall_holds_iff rfl rfl]
    exact iff_of_true rfl id
  | int n =>
    rw [forall_holds_iff rfl rfl]
    exact iff_of_true (ofNumber_ofInt64 n) id
  | float x =>
    rw [forall_holds_iff rfl rfl, toJson]
    split
    · rename_i hx
      exact iff_of_true rfl (by simp [Lossy, hx])
    · rename_i hx
      refine iff_of_false ?_ (by simp [Lossy, hx])
      intro h
      cases h
  | timestamp _ | uuid _ =>
    rw [forall_holds_iff rfl rfl]
    refine iff_of_false ?_ (not_not_intro trivial)
    intro h
    cases h
  | object es =>
    rw [forall_holds_iff rfl rfl]
    exact ofJson_object_eq_iff
  | comparison o v ih =>
    rw [forall_holds_comparison_iff id, ← ih, toJson, ofJson_comparison, Value.comparison.injEq,
      and_iff_right rfl]
  | list vs ih =>
    have hitems : (∀ v ∈ vs, ofJson v.toJson = v) ↔ ∀ v ∈ vs, ∀ w, v.Holds w → ¬w.Lossy :=
      forall₂_congr ih
    rw [forall_holds_list_iff id, ← hitems, toJson, toJsons_eq_map, ofJson_array, List.map_map,
      Value.list.injEq]
    nth_rewrite 2 [← List.map_id vs]
    exact List.map_inj_left

end Criteria.Value
