import Criteria.Proofs.Reading.Parts

/-! The fields that a document gives, in one list for every kind of request. -/
namespace Criteria

section

variable (limit : Option Nat) (reserved : List String)

/-- The fields that the entries of a document give, apart from the reserved ones. -/
def fieldPairs (es : Entries Json) : List (String × Value) :=
  (es.filter fun e => e.1 ∉ reserved ∧ Fits limit e.2.nesting).map fun e => (e.1, Value.ofJson e.2)

variable {limit reserved}

/-- A fold that inserts what an entry gives, unless its key is reserved. -/
theorem fields_foldl {β : Type} (fields : β → ColumnMap) {f : β → String × Json → β}
    (h : ∀ b e, fields (f b e) =
      if e.1 ∈ reserved then fields b else (fields b).insert? e.1 (Value.ofJson? limit 0 e.2))
    (es : Entries Json) (b : β) : fields (es.foldl f b) =
      (fieldPairs limit reserved es).foldl (fun m e => m.insert e.1 e.2) (fields b) := by
  induction es generalizing b with
  | nil => rfl
  | cons e es ih =>
    rw [List.foldl_cons, ih, h]
    by_cases hr : e.1 ∈ reserved
    · simp [fieldPairs, hr]
    · by_cases hf : Fits limit e.2.nesting
      · simp [fieldPairs, hr, hf, Value.ofJson?, ColumnMap.insert?]
      · simp [fieldPairs, hr, hf, Value.ofJson?, ColumnMap.insert?]

theorem ReadRequest.fields_kept (j : Json) :
    (kept limit j).fields = .ofList (fieldPairs limit ReadRequest.reserved j.entries) := by
  have hput : ∀ (r : ReadRequest) e, (put limit r e).fields =
      if e.1 ∈ ReadRequest.reserved then r.fields
      else r.fields.insert? e.1 (Value.ofJson? limit 0 e.2) := by
    intro r e
    rw [put]
    split
    · simp_all [ReadRequest.reserved]
    split
    · simp_all [ReadRequest.reserved]
    split <;> simp_all [ReadRequest.reserved]
  exact fields_foldl ReadRequest.fields hput j.entries {}

theorem InsertRequest.fields_kept (j : Json) :
    (kept limit j).fields = .ofList (fieldPairs limit [] j.entries) := by
  have hput : ∀ (m : ColumnMap) (e : String × Json), m.insert? e.1 (Value.ofJson? limit 0 e.2) =
      if e.1 ∈ [] then m else m.insert? e.1 (Value.ofJson? limit 0 e.2) := by
    intro m e
    rw [if_neg List.not_mem_nil]
  exact fields_foldl id hput j.entries ∅

theorem UpdateRequest.fields_kept (j : Json) :
    (kept limit j).fields = .ofList (fieldPairs limit ["queryOptions"] j.entries) := by
  have hput : ∀ (r : UpdateRequest) e, (put limit r e).fields =
      if e.1 ∈ ["queryOptions"] then r.fields
      else r.fields.insert? e.1 (Value.ofJson? limit 0 e.2) := by
    intro r e
    rw [put]
    split
    · cases e.2.nonNull? <;> simp_all [selecting]
    · simp_all
  exact fields_foldl UpdateRequest.fields hput j.entries {}

/-- Columns that are all different keep their order. -/
theorem ColumnMap.entries_ofList {pairs : List (String × Value)}
    (h : (Entries.keys pairs).Nodup) : (ofList pairs).entries = pairs := by
  induction pairs using List.reverseRecOn with
  | nil => rfl
  | append_singleton pairs p ih =>
    have hp := Entries.not_mem_keys_of_nodup h
    rw [Entries.keys, List.map_append] at h
    have hpairs := ih h.of_append_left
    rw [← hpairs] at hp
    rw [ofList, List.foldl_append]
    refine (Entries.insert_of_not_mem hp).trans ?_
    rw [hpairs]

theorem mem_fieldPairs_iff {es : Entries Json} {k : String} {v : Value} :
    (k, v) ∈ fieldPairs limit reserved es ↔
      ∃ j, (k, j) ∈ es ∧ k ∉ reserved ∧ Value.ofJson? limit 0 j = some v := by
  simp [fieldPairs, Value.ofJson?, and_assoc]

theorem nodup_fieldPairs {es : Entries Json} (h : es.keys.Nodup) :
    (Entries.keys (fieldPairs limit reserved es)).Nodup := by
  rw [Entries.keys, fieldPairs, List.map_map]
  exact h.sublist (List.filter_sublist.map Prod.fst)

theorem fieldPairs_append {es fs : Entries Json} : fieldPairs limit reserved (es ++ fs) =
    fieldPairs limit reserved es ++ fieldPairs limit reserved fs := by
  rw [fieldPairs, List.filter_append, List.map_append]
  rfl

theorem fieldPairs_of_reserved {es : Entries Json} (h : ∀ k ∈ es.keys, k ∈ reserved) :
    fieldPairs limit reserved es = [] := by
  refine List.map_eq_nil_iff.mpr (List.filter_eq_nil_iff.mpr fun e he => ?_)
  have hk := h e.1 (List.mem_map_of_mem he)
  simp [hk]

end

end Criteria
