import Criteria.Proofs.Compilation.Specification

/-! What an allow-list leaves of the calls, and what it hides from every target. -/
namespace Criteria

/-- The column of a condition, a value or an assignment. No other call is subject to an
allow-list. -/
def Call.field? : Call → Option String
  | whereEq c _ | whereOp c _ _ | whereIn c _ | value c _ | set c _ => some c
  | orderBy _ | limit _ | offset _ => none

namespace AllowList

variable {allowed : AllowList} {c : Call} {column : String}

def admits (allowed : AllowList) (c : Call) : Bool := c.field?.all allowed.contains

theorem admits_of_field (h : c.field? = some column) :
    allowed.admits c = allowed.contains column := by
  rw [admits, h, Option.all_some]

theorem admits_of_no_field (h : c.field? = none) : allowed.admits c = true := by
  rw [admits, h, Option.all_none]

theorem admits_empty_iff : (∅ : AllowList).admits c = true ↔ c.field? = none := by
  cases h : c.field? with
  | none => simp [admits_of_no_field h]
  | some column =>
    rw [admits_of_field h, contains_iff]
    simp [not_mem_empty]

end AllowList

namespace Compilation

variable {allowed a b : AllowList} {column : String} {v : Value} {c : Call} {m : ColumnMap}
  {js ks : List Step}

theorem field?_of_where (h : c.isWhere = true) : c.field? = c.column? := by
  cases c with
  | whereEq | whereOp | whereIn => rfl
  | _ => cases h

theorem field?_of_mem_conditionCalls (h : c ∈ conditionCalls column v) :
    c.field? = some column := by
  obtain ⟨hwhere, hcolumn⟩ := conditionCalls_where h
  rw [field?_of_where hwhere, hcolumn]

theorem field?_of_mem_rangeCalls {r : ReadRequest} (h : c ∈ rangeCalls r) : c.field? = none := by
  obtain ⟨_, _, rfl⟩ | ⟨_, _, rfl⟩ | ⟨_, _, rfl⟩ := mem_rangeCalls_iff.mp h <;> rfl

/-- The calls of a field are admitted or left out together. -/
theorem filter_admits_fields {f : String → Value → List Call}
    (hf : ∀ column v, ∀ c ∈ f column v, c.field? = some column) (h : ∀ name ∈ a, name ∈ b) :
    ((allowedFields b m).flatMap fun e => f e.1 e.2).filter a.admits =
      (allowedFields a m).flatMap fun e => f e.1 e.2 := by
  have hblock : ∀ e : String × Value,
      (f e.1 e.2).filter a.admits = if a.contains e.1 then f e.1 e.2 else [] := by
    intro e
    have hadmits : ∀ c ∈ f e.1 e.2, a.admits c = a.contains e.1 :=
      fun c hc => AllowList.admits_of_field (hf e.1 e.2 c hc)
    rw [List.filter_congr hadmits]
    cases a.contains e.1 <;> simp
  rw [allowedFields, allowedFields]
  induction m.entries with
  | nil => rfl
  | cons e es ih =>
    by_cases ha : a.contains e.1 = true
    · have hb : b.contains e.1 = true :=
        AllowList.contains_iff.mpr (h _ (AllowList.contains_iff.mp ha))
      simp [ha, hb, hblock, ← ih]
    · by_cases hb : b.contains e.1 = true <;> simp [ha, hb, hblock, ← ih]

theorem filter_admits_range (r : ReadRequest) : (rangeCalls r).filter a.admits = rangeCalls r :=
  List.filter_eq_self.mpr fun _ hc => AllowList.admits_of_no_field (field?_of_mem_rangeCalls hc)

/-- What a target has seen of two runs is the same, and so is what came of them. -/
structure LooksLike {σ ε α : Type} (r r' : Run σ ε α) : Prop where
  calls : r.calls = r'.calls
  state : r.state = r'.state
  result : r.result = r'.result

/-- A target does not see the notices between its calls. -/
theorem perform_looksLike_calls {σ ε : Type} (t : Target σ ε) (s : σ) (js : List Step) :
    LooksLike (perform js t s) (perform ((js.filterMap Step.call?).map .call) t s) := by
  induction js generalizing s with
  | nil => exact ⟨rfl, rfl, rfl⟩
  | cons j js ih =>
    cases j with
    | notice n =>
      obtain ⟨hcalls, hstate, hresult⟩ := ih s
      rw [perform_notice]
      exact ⟨hcalls, hstate, hresult⟩
    | call c =>
      have hcons : (Step.call c :: js).filterMap Step.call? = c :: js.filterMap Step.call? := rfl
      rw [hcons, List.map_cons]
      rcases h : t.receive s c with ⟨s', _ | _⟩
      · rw [perform_call_error h, perform_call_error h]
        exact ⟨rfl, rfl, rfl⟩
      · obtain ⟨hcalls, hstate, hresult⟩ := ih s'
        rw [perform_call_ok h, perform_call_ok h]
        exact ⟨congrArg (c :: ·) hcalls, hstate, hresult⟩

/-- No target can tell the two apart. -/
def Indistinguishable (x y : ∀ σ ε : Type, Compilation σ ε Unit) : Prop :=
  ∀ (σ ε : Type) (t : Target σ ε) (s : σ), LooksLike (x σ ε t s) (y σ ε t s)

theorem indistinguishable_of_calls
    (h : (onLog fun _ _ => perform js).calls = (onLog fun _ _ => perform ks).calls) :
    Indistinguishable (fun _ _ => perform js) fun _ _ => perform ks := by
  intro σ ε t s
  rw [calls_perform, calls_perform] at h
  obtain ⟨hcalls, hstate, hresult⟩ := perform_looksLike_calls t s js
  obtain ⟨hcalls', hstate', hresult'⟩ := perform_looksLike_calls t s ks
  rw [h] at hcalls hstate hresult
  exact ⟨hcalls.trans hcalls'.symm, hstate.trans hstate'.symm, hresult.trans hresult'.symm⟩

end Compilation

open Compilation (allowedFields)

/-- The same allowed fields in the same order, and the same in all that is no field. What is not
allowed may differ in any way. -/
structure ReadRequest.AgreeUnder (allowed : AllowList) (r s : ReadRequest) : Prop where
  fields : allowedFields allowed r.fields = allowedFields allowed s.fields
  order : r.order = s.order
  limit : r.limit = s.limit
  offset : r.offset = s.offset

structure InsertRequest.AgreeUnder (allowed : AllowList) (r s : InsertRequest) : Prop where
  fields : allowedFields allowed r.fields = allowedFields allowed s.fields

/-- No selection agrees with one that says nothing. -/
structure UpdateRequest.AgreeUnder (allowed : AllowList) (r s : UpdateRequest) : Prop where
  fields : allowedFields allowed r.fields = allowedFields allowed s.fields
  selection : ReadRequest.AgreeUnder allowed (r.selection.getD {}) (s.selection.getD {})

namespace Compilation

variable {allowed a b : AllowList}

theorem calls_read_getD (r : Option ReadRequest) :
    (onLog fun _ _ => read r allowed).calls =
      ((allowedFields allowed (r.getD {}).fields).flatMap fun e => conditionCalls e.1 e.2) ++
        rangeCalls (r.getD {}) := by
  cases r with
  | none => rfl
  | some r => exact calls_read r

theorem calls_insert_getD (r : Option InsertRequest) :
    (onLog fun _ _ => insert r allowed).calls =
      (allowedFields allowed (r.getD {}).fields).flatMap fun e => [.value e.1 e.2] := by
  cases r with
  | none => rfl
  | some r => exact (calls_insert r).trans List.map_eq_flatMap

theorem calls_update_getD (r : Option UpdateRequest) :
    (onLog fun _ _ => update r allowed).calls =
      ((allowedFields allowed (r.getD {}).fields).flatMap fun e => [.set e.1 e.2]) ++
        (onLog fun _ _ => read (r.getD {}).selection allowed).calls := by
  cases r with
  | none => rfl
  | some r =>
    rw [calls_update, List.map_eq_flatMap]
    rfl

theorem calls_read_of_subset (r : Option ReadRequest) (h : ∀ name ∈ a, name ∈ b) :
    (onLog fun _ _ => read r a).calls =
      (onLog fun _ _ => read r b).calls.filter a.admits := by
  have hfields := filter_admits_fields (m := (r.getD {}).fields)
    (fun column v c hc => @field?_of_mem_conditionCalls column v c hc) h
  rw [calls_read_getD, calls_read_getD, List.filter_append, filter_admits_range, hfields]

theorem calls_insert_of_subset (r : Option InsertRequest) (h : ∀ name ∈ a, name ∈ b) :
    (onLog fun _ _ => insert r a).calls =
      (onLog fun _ _ => insert r b).calls.filter a.admits := by
  rw [calls_insert_getD, calls_insert_getD,
    filter_admits_fields (f := fun column v => [.value column v]) (by simp [Call.field?]) h]

theorem calls_update_of_subset (r : Option UpdateRequest) (h : ∀ name ∈ a, name ∈ b) :
    (onLog fun _ _ => update r a).calls =
      (onLog fun _ _ => update r b).calls.filter a.admits := by
  rw [calls_update_getD, calls_update_getD, List.filter_append, ← calls_read_of_subset _ h,
    filter_admits_fields (f := fun column v => [.set column v]) (by simp [Call.field?]) h]

theorem calls_read_of_agree {r s : Option ReadRequest}
    (h : ReadRequest.AgreeUnder allowed (r.getD {}) (s.getD {})) :
    (onLog fun _ _ => read r allowed).calls = (onLog fun _ _ => read s allowed).calls := by
  rw [calls_read_getD, calls_read_getD, rangeCalls, rangeCalls, h.fields, h.order, h.limit,
    h.offset]

theorem calls_insert_of_agree {r s : Option InsertRequest}
    (h : InsertRequest.AgreeUnder allowed (r.getD {}) (s.getD {})) :
    (onLog fun _ _ => insert r allowed).calls = (onLog fun _ _ => insert s allowed).calls := by
  rw [calls_insert_getD, calls_insert_getD, h.fields]

theorem calls_update_of_agree {r s : Option UpdateRequest}
    (h : UpdateRequest.AgreeUnder allowed (r.getD {}) (s.getD {})) :
    (onLog fun _ _ => update r allowed).calls = (onLog fun _ _ => update s allowed).calls := by
  rw [calls_update_getD, calls_update_getD, h.fields, calls_read_of_agree h.selection]

/-- What allow-lists do to the requests of one kind. -/
structure Filters {ρ : Type} (compile : Option ρ → AllowList → ∀ σ ε : Type, Compilation σ ε Unit)
    (agree : AllowList → Option ρ → Option ρ → Prop) : Prop where
  /-- Under a smaller list the calls of the fields that it leaves out are missing, and no others. -/
  calls_of_subset : ∀ r a b, (∀ name ∈ a, name ∈ b) →
    (onLog (compile r a)).calls = (onLog (compile r b)).calls.filter a.admits
  /-- Orders, limits and offsets are the same under all lists. -/
  others : ∀ r a b, (onLog (compile r a)).calls.filter (·.field? = none) =
    (onLog (compile r b)).calls.filter (·.field? = none)
  allowed : ∀ r a, ∀ c ∈ (onLog (compile r a)).calls, ∀ column ∈ c.field?, column ∈ a
  hidden : ∀ a r s, agree a r s → Indistinguishable (compile r a) (compile s a)

theorem filters {ρ : Type} {compile : Option ρ → AllowList → ∀ σ ε : Type, Compilation σ ε Unit}
    {agree : AllowList → Option ρ → Option ρ → Prop} (steps : Option ρ → AllowList → List Step)
    (heq : ∀ r a, compile r a = fun _ _ => perform (steps r a))
    (hsubset : ∀ r a b, (∀ name ∈ a, name ∈ b) →
      (onLog (compile r a)).calls = (onLog (compile r b)).calls.filter a.admits)
    (hagree : ∀ a r s, agree a r s →
      (onLog (compile r a)).calls = (onLog (compile s a)).calls) :
    Filters compile agree := by
  -- what an empty list lets through is what every list does
  have hempty : ∀ r a, (onLog (compile r a)).calls.filter (·.field? = none) =
      (onLog (compile r ∅)).calls := by
    intro r a
    rw [hsubset r ∅ a fun name hname => absurd hname List.not_mem_nil]
    refine List.filter_congr fun c _ => ?_
    rw [Bool.eq_iff_iff, decide_eq_true_iff, AllowList.admits_empty_iff]
  constructor
  · exact hsubset
  · intro r a b
    rw [hempty, hempty]
  · intro r a c hc column hcolumn
    rw [hsubset r a a fun _ hname => hname, List.mem_filter] at hc
    rw [← AllowList.contains_iff, ← AllowList.admits_of_field hcolumn]
    exact hc.2
  · intro a r s h
    have hcalls := hagree a r s h
    rw [heq, heq] at hcalls ⊢
    exact indistinguishable_of_calls hcalls

/-- Every request keeps to the columns that it is allowed, and tells a target nothing of others. -/
theorem requests_filter :
    Filters (fun r a _ _ => read r a)
        (fun a r s => ReadRequest.AgreeUnder a (r.getD {}) (s.getD {})) ∧
      Filters (fun r a _ _ => select r a)
        (fun a r s => ReadRequest.AgreeUnder a (r.getD {}) (s.getD {})) ∧
      Filters (fun r a _ _ => delete r a)
        (fun a r s => ReadRequest.AgreeUnder a (r.getD {}) (s.getD {})) ∧
      Filters (fun r a _ _ => insert r a)
        (fun a r s => InsertRequest.AgreeUnder a (r.getD {}) (s.getD {})) ∧
      Filters (fun r a _ _ => update r a)
        (fun a r s => UpdateRequest.AgreeUnder a (r.getD {}) (s.getD {})) := by
  have hread : Filters (fun r a _ _ => read r a)
      (fun a r s => ReadRequest.AgreeUnder a (r.getD {}) (s.getD {})) := by
    refine filters readSteps (fun r a => ?_) (fun r _ _ => calls_read_of_subset r)
      fun _ _ _ => calls_read_of_agree
    funext _ _
    exact read_eq r
  refine ⟨hread, hread, hread, ?_, ?_⟩
  · refine filters insertSteps (fun r a => ?_) (fun r _ _ => calls_insert_of_subset r)
      fun _ _ _ => calls_insert_of_agree
    funext _ _
    exact insert_eq r
  · refine filters updateSteps (fun r a => ?_) (fun r _ _ => calls_update_of_subset r)
      fun _ _ _ => calls_update_of_agree
    funext _ _
    exact update_eq r

end Compilation

end Criteria
