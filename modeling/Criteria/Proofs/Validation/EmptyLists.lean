import Criteria.Proofs.Compilation.Specification
import Criteria.Proofs.Validation.Exact
import Criteria.Proofs.Value.Basic

/-! Empty lists among the conditions: those that a report finds, and those that reach a target. -/
namespace Criteria

/-- The items of a membership test are of one kind, and the first is no list. -/
theorem IsMembership.not_isList {vs : List Value} (h : IsMembership vs) :
    ∀ v ∈ vs, ¬v.isList = true := by
  obtain ⟨hkind, hfirst⟩ := h
  cases vs with
  | nil => simp
  | cons first vs =>
    intro v hv hlist
    have hsame : first.kind = .list :=
      (hkind first List.mem_cons_self v hv).trans (Value.kind_eq_list_iff.mpr hlist)
    rw [Value.kind_eq_list_iff, (hfirst first rfl).2] at hsame
    cases hsame

namespace Compilation

variable {column : String} {v : Value} {vs : List Value} {allowed : AllowList} {r : ReadRequest}

theorem itemCall_eq_whereIn_iff {ws : List Value} :
    itemCall column v = .whereIn column ws ↔ v = .list ws := by
  cases v <;> simp [itemCall]

/-- Only an empty item of a list makes a membership test in nothing. -/
theorem emptyMembership_mem_conditionCalls_iff :
    .whereIn column [] ∈ conditionCalls column v ↔ ∃ vs, v = .list vs ∧ .list [] ∈ vs := by
  cases v with
  | list vs =>
    simp only [Value.list.injEq, exists_eq_left']
    rw [conditionCalls]
    cases hs : Shape.ofList? vs with
    | none => simp [Shape.ofList?_eq_none_iff.mp hs]
    | some shape =>
      cases shape with
      | membership =>
        obtain ⟨hvs, hm⟩ := Shape.ofList?_eq_membership_iff.mp hs
        have hitem : .list [] ∉ vs := fun hmem => IsMembership.not_isList hm _ hmem rfl
        simp [listCalls, hvs.symm, hitem]
      | conjunction => simp [listCalls, itemCall_eq_whereIn_iff]
  | _ => simp [conditionCalls, itemCall]

theorem emptyMembership_mem_calls_read_iff :
    .whereIn column [] ∈ (onLog fun _ _ => read (some r) allowed).calls ↔
      allowed.contains column = true ∧
        ∃ vs, (column, .list vs) ∈ r.fields.entries ∧ .list [] ∈ vs := by
  rw [mem_calls_read_iff]
  constructor
  · rintro (⟨⟨key, v⟩, he, hallowed, hc⟩ | hc)
    · have hkey : column = key := Option.some.inj (conditionCalls_where hc).2
      subst key
      obtain ⟨vs, rfl, hvs⟩ := emptyMembership_mem_conditionCalls_iff.mp hc
      exact ⟨hallowed, vs, he, hvs⟩
    · cases isWhere_of_mem_rangeCalls hc
  · rintro ⟨hallowed, vs, he, hvs⟩
    exact .inl ⟨_, he, hallowed, emptyMembership_mem_conditionCalls_iff.mpr ⟨vs, rfl, hvs⟩⟩

end Compilation

namespace Validation

open Compilation (onLog)

variable {allowed : AllowList} {r : ReadRequest} {column : String}

/-- What becomes of the empty lists among the conditions of a request. -/
structure TreatsEmptyLists (allowed : AllowList) (r : ReadRequest) (report : Report)
    (calls : List Call) : Prop where
  /-- A report finds those that are the whole value of a field, and no others. -/
  reported_iff : ∀ column, (∃ f ∈ report.of [.emptyList], f.field = column) ↔
    (column, .list []) ∈ r.fields.entries
  /-- Those make no condition. -/
  skipped : ∀ column, (column, .list []) ∈ r.fields.entries →
    ¬∃ c ∈ calls, c.isWhere = true ∧ c.column? = some column
  /-- One among the items of a list makes a membership test in nothing. -/
  called_iff : ∀ column, .whereIn column [] ∈ calls ↔ allowed.contains column = true ∧
    ∃ vs, (column, .list vs) ∈ r.fields.entries ∧ .list [] ∈ vs
  /-- Under a clean report that is the only way to a membership test in nothing. -/
  clean : report.isEmpty = true → ((∀ column, .whereIn column [] ∉ calls) ↔
    ∀ e ∈ r.fields.entries, ∀ vs, e.2 = .list vs → .list [] ∉ vs)

theorem mem_field_emptyLists_iff :
    (∃ f ∈ (read allowed r).of [.emptyList], f.field = column) ↔
      (column, .list []) ∈ r.fields.entries := by
  obtain ⟨-, hlists, -⟩ := of_codes none allowed r
  have hmap : column ∈ (emptyLists none r.fields).map Finding.field ↔
      (column, .list []) ∈ r.fields.entries := by
    rw [field_emptyLists]
    constructor
    · intro h
      obtain ⟨⟨key, v⟩, he, rfl⟩ := List.mem_map.mp h
      obtain ⟨he, hv⟩ := List.mem_filter.mp he
      obtain rfl : v = .list [] := of_decide_eq_true hv
      exact he
    · intro h
      exact List.mem_map_of_mem (List.mem_filter.mpr ⟨h, decide_eq_true rfl⟩)
  rw [read, hlists, ← hmap, List.mem_map]

/-- An empty list that is the value of a field is skipped and reported. As an item of a list it is
neither: it reaches the target as a membership test in nothing. -/
theorem read_treatsEmptyLists (allowed : AllowList) (r : ReadRequest) :
    TreatsEmptyLists allowed r (read allowed r)
      (onLog fun _ _ => Compilation.read (some r) allowed).calls := by
  constructor
  · intro column
    exact mem_field_emptyLists_iff
  · intro column he
    exact (silent_field_iff he).mpr (.inr rfl)
  · intro column
    exact Compilation.emptyMembership_mem_calls_read_iff
  · intro h
    obtain ⟨hallowed, -⟩ := fields_of_isEmpty h
    simp only [Compilation.emptyMembership_mem_calls_read_iff]
    constructor
    · rintro hnone ⟨column, v⟩ he vs rfl hvs
      exact hnone column ⟨hallowed _ he, vs, he, hvs⟩
    · rintro hnone column ⟨-, vs, he, hvs⟩
      exact hnone _ he vs rfl hvs

/-- Here the report is clean, and the empty list reaches the target all the same. -/
theorem emptyMembership_unreported : ¬∀ (allowed : AllowList) (r : ReadRequest),
    (read allowed r).isEmpty = true → ∀ column,
      .whereIn column [] ∉ (onLog fun _ _ => Compilation.read (some r) allowed).calls := by
  intro h
  refine h (AllowList.ofList ["id"])
    { fields := ColumnMap.ofList [("id", .list [.list []])] } rfl "id" ?_
  exact List.mem_cons_self

end Validation

end Criteria
