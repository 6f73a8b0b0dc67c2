import Criteria.Validation

/-! What a report says of the fields, and when it says nothing. -/
namespace Criteria.Validation

variable {base : Option Path} {allowed : AllowList} {m : ColumnMap} {r : ReadRequest} {v : Value}

theorem isEmpty_items_iff : (v.items?.any List.isEmpty) = true ↔ v = .list [] := by
  cases v <;> simp [Value.items?]

instance (v : Value) : Decidable (v = .list []) := decidable_of_iff _ isEmpty_items_iff

theorem unknownColumns_eq_nil_iff :
    unknownColumns base allowed m = [] ↔ ∀ e ∈ m.entries, allowed.contains e.1 = true := by
  simp [unknownColumns, ColumnMap.columns, Entries.keys]

theorem emptyLists_eq_nil_iff : emptyLists base m = [] ↔ ∀ e ∈ m.entries, e.2 ≠ .list [] := by
  simp [emptyLists, ← isEmpty_items_iff]

/-- A clean report finds every column allowed and no list empty. -/
theorem fields_of_isEmpty (h : (readAt base allowed r).isEmpty = true) :
    (∀ e ∈ r.fields.entries, allowed.contains e.1 = true) ∧
      ∀ e ∈ r.fields.entries, e.2 ≠ .list [] := by
  have h := List.isEmpty_iff.mp h
  simp only [readAt, List.append_eq_nil_iff] at h
  obtain ⟨⟨⟨⟨hu, he⟩, -⟩, -⟩, -⟩ := h
  exact ⟨unknownColumns_eq_nil_iff.mp hu, emptyLists_eq_nil_iff.mp he⟩

theorem insert_isEmpty {r : InsertRequest} (h : (insert allowed r).isEmpty = true) :
    ∀ e ∈ r.fields.entries, allowed.contains e.1 = true :=
  unknownColumns_eq_nil_iff.mp (List.isEmpty_iff.mp h)

theorem update_isEmpty {r : UpdateRequest} (h : (update allowed r).isEmpty = true) :
    (∀ e ∈ r.fields.entries, allowed.contains e.1 = true) ∧
      ∀ q ∈ r.selection, (readAt (some (.key "queryOptions")) allowed q).isEmpty = true := by
  obtain ⟨hu, hs⟩ := List.append_eq_nil_iff.mp (List.isEmpty_iff.mp h)
  refine ⟨unknownColumns_eq_nil_iff.mp hu, fun q hq => ?_⟩
  rw [Option.mem_def.mp hq] at hs
  exact List.isEmpty_iff.mpr hs

@[simp]
theorem fieldName_none (key : String) : fieldName none key = key := rfl

theorem field_unknownColumns : (unknownColumns none allowed m).map Finding.field =
    m.columns.filter fun column => !allowed.contains column := by
  rw [unknownColumns, List.map_map]
  exact List.map_id _

theorem field_emptyLists : (emptyLists none m).map Finding.field =
    (m.entries.filter fun e => e.2 = .list []).map Prod.fst := by
  rw [emptyLists, List.map_map]
  simp only [← isEmpty_items_iff, Bool.decide_eq_true]
  rfl

end Criteria.Validation
