import Criteria.Proofs.Compilation.Steps

/-! The calls that a compilation makes on the log. -/
namespace Criteria

def Call.term? : Call → Option OrderTerm
  | orderBy t => some t
  | _ => none

namespace Compilation

variable {allowed : AllowList} {column : String} {v : Value} {c : Call} {m : ColumnMap}
  {r : ReadRequest}

def conditionCalls (column : String) : Value → List Call
  | .list vs => ((Shape.ofList? vs).map (listCalls column vs)).getD []
  | v => [itemCall column v]

theorem calls_perform {js : List Step} :
    (onLog fun _ _ => perform js).calls = js.filterMap Step.call? := by
  rw [onLog, perform_log]
  rfl

theorem filterMap_calls (cs : List Call) : (cs.map .call).filterMap Step.call? = cs := by
  rw [List.filterMap_map]
  exact List.filterMap_some

theorem filterMap_conditionSteps :
    (conditionSteps column v).filterMap Step.call? = conditionCalls column v := by
  cases v with
  | list vs =>
    rw [conditionSteps, conditionCalls]
    cases Shape.ofList? vs with
    | none => rfl
    | some shape => exact filterMap_calls _
  | _ => rfl

theorem filterMap_fieldsSteps {f : String → Value → List Step} :
    (fieldsSteps m allowed f).filterMap Step.call? =
      (m.entries.filter fun e => allowed.contains e.1).flatMap
        fun e => (f e.1 e.2).filterMap Step.call? := by
  rw [fieldsSteps]
  induction m.entries with
  | nil => rfl
  | cons e es ih =>
    rw [List.flatMap_cons, List.filterMap_append, ih, fieldSteps]
    cases h : allowed.contains e.1 <;> simp [h, Step.call?]

theorem calls_read (r : ReadRequest) : (onLog fun _ _ => read (some r) allowed).calls =
    (r.fields.entries.filter fun e => allowed.contains e.1).flatMap
      (fun e => conditionCalls e.1 e.2) ++ rangeCalls r := by
  simp only [read_eq, calls_perform, readSteps, Option.toList_some, List.flatMap_singleton,
    List.filterMap_append, filterMap_fieldsSteps, filterMap_calls, filterMap_conditionSteps]

theorem calls_insert (r : InsertRequest) : (onLog fun _ _ => insert (some r) allowed).calls =
    (r.fields.entries.filter fun e => allowed.contains e.1).map fun e => .value e.1 e.2 := by
  simp only [insert_eq, calls_perform, insertSteps, Option.toList_some, List.flatMap_singleton,
    filterMap_fieldsSteps]
  exact List.map_eq_flatMap.symm

theorem calls_update (r : UpdateRequest) : (onLog fun _ _ => update (some r) allowed).calls =
    ((r.fields.entries.filter fun e => allowed.contains e.1).map fun e => .set e.1 e.2) ++
      (onLog fun _ _ => read r.selection allowed).calls := by
  simp only [update_eq, read_eq, calls_perform, updateSteps, Option.toList_some,
    List.flatMap_singleton, List.filterMap_append, filterMap_fieldsSteps]
  congr
  exact List.map_eq_flatMap.symm

theorem conditionCalls_eq_nil_iff : conditionCalls column v = [] ↔ v = .list [] := by
  cases v with
  | list vs =>
    rw [conditionCalls, Value.list.injEq]
    cases hs : Shape.ofList? vs with
    | none => simp [Shape.ofList?_eq_none_iff.mp hs]
    | some shape =>
      have hvs : vs ≠ [] := by
        intro h
        rw [Shape.ofList?_eq_none_iff.mpr h] at hs
        cases hs
      cases shape <;> simp [listCalls, hvs]
  | _ => simp [conditionCalls]

theorem itemCall_where : (itemCall column v).isWhere = true ∧
    (itemCall column v).column? = some column := by
  cases v <;> exact ⟨rfl, rfl⟩

theorem conditionCalls_where (h : c ∈ conditionCalls column v) :
    c.isWhere = true ∧ c.column? = some column := by
  cases v with
  | list vs =>
    rw [conditionCalls] at h
    cases hs : Shape.ofList? vs with
    | none => simp [hs] at h
    | some shape =>
      rw [hs] at h
      cases shape with
      | membership =>
        rw [List.mem_singleton.mp h]
        exact ⟨rfl, rfl⟩
      | conjunction =>
        obtain ⟨v, -, rfl⟩ := List.mem_map.mp h
        exact itemCall_where
  | _ =>
    rw [List.mem_singleton.mp h]
    exact itemCall_where

theorem mem_rangeCalls_iff : c ∈ rangeCalls r ↔
    (∃ t ∈ r.order.toList.flatMap OrderClause.toTerms, c = .orderBy t) ∨
      (∃ v ∈ r.limit, c = .limit v) ∨ ∃ v ∈ r.offset, c = .offset v := by
  simp [rangeCalls, eq_comm]

theorem isWhere_of_mem_rangeCalls (h : c ∈ rangeCalls r) : c.isWhere = false := by
  obtain ⟨_, _, rfl⟩ | ⟨_, _, rfl⟩ | ⟨_, _, rfl⟩ := mem_rangeCalls_iff.mp h <;> rfl

/-- A call is a condition on an allowed field, or comes after the conditions. -/
theorem mem_calls_read_iff : c ∈ (onLog fun _ _ => read (some r) allowed).calls ↔
    (∃ e ∈ r.fields.entries, allowed.contains e.1 = true ∧ c ∈ conditionCalls e.1 e.2) ∨
      c ∈ rangeCalls r := by
  simp only [calls_read, List.mem_append, List.mem_flatMap, List.mem_filter, and_assoc]

theorem exists_where_iff :
    (∃ c ∈ (onLog fun _ _ => read (some r) allowed).calls,
      c.isWhere = true ∧ c.column? = some column) ↔
    ∃ e ∈ r.fields.entries, e.1 = column ∧ allowed.contains e.1 = true ∧ e.2 ≠ .list [] := by
  constructor
  · rintro ⟨c, hc, hwhere, hcolumn⟩
    obtain ⟨e, he, hallowed, hc⟩ | hc := mem_calls_read_iff.mp hc
    · have hkey : e.1 = column :=
        Option.some.inj ((conditionCalls_where hc).2.symm.trans hcolumn)
      exact ⟨e, he, hkey, hallowed,
        fun hv => List.ne_nil_of_mem hc (conditionCalls_eq_nil_iff.mpr hv)⟩
    · rw [isWhere_of_mem_rangeCalls hc] at hwhere
      cases hwhere
  · rintro ⟨e, he, rfl, hallowed, hv⟩
    obtain ⟨c, hc⟩ := List.exists_mem_of_ne_nil _ (mt conditionCalls_eq_nil_iff.mp hv)
    exact ⟨c, mem_calls_read_iff.mpr (.inl ⟨e, he, hallowed, hc⟩), conditionCalls_where hc⟩

/-- Calls that are no conditions come from the order and the range. -/
theorem mem_calls_read_iff_of_not_where (hc : c.isWhere = false) :
    c ∈ (onLog fun _ _ => read (some r) allowed).calls ↔ c ∈ rangeCalls r := by
  rw [mem_calls_read_iff]
  refine or_iff_right ?_
  rintro ⟨e, -, -, h⟩
  rw [(conditionCalls_where h).1] at hc
  cases hc

theorem limit_mem_calls_read :
    .limit v ∈ (onLog fun _ _ => read (some r) allowed).calls ↔ r.limit = some v := by
  rw [mem_calls_read_iff_of_not_where rfl, mem_rangeCalls_iff]
  simp

theorem offset_mem_calls_read :
    .offset v ∈ (onLog fun _ _ => read (some r) allowed).calls ↔ r.offset = some v := by
  rw [mem_calls_read_iff_of_not_where rfl, mem_rangeCalls_iff]
  simp

theorem term_of_where (h : c.isWhere = true) : c.term? = none := by
  cases c with
  | orderBy t => cases h
  | _ => rfl

theorem terms_calls_read (r : ReadRequest) :
    (onLog fun _ _ => read (some r) allowed).calls.filterMap Call.term? =
      r.order.toList.flatMap OrderClause.toTerms := by
  have hconditions : ∀ es : Entries Value,
      (es.flatMap fun e => conditionCalls e.1 e.2).filterMap Call.term? = [] := by
    intro es
    refine List.filterMap_eq_nil_iff.mpr fun c hc => ?_
    obtain ⟨e, -, hc⟩ := List.mem_flatMap.mp hc
    exact term_of_where (conditionCalls_where hc).1
  have hterms : ∀ ts : List OrderTerm, (ts.map Call.orderBy).filterMap Call.term? = ts := by
    intro ts
    rw [List.filterMap_map]
    exact List.filterMap_some
  rw [calls_read, rangeCalls, List.filterMap_append, hconditions, List.nil_append,
    List.filterMap_append, List.filterMap_append, hterms]
  cases r.limit <;> cases r.offset <;> simp [Call.term?]

end Compilation

end Criteria
