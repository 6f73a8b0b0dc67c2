import Criteria.Proofs.Compilation.Calls
import Criteria.Proofs.Reading.Strict
import Criteria.Proofs.Validation.Findings

/-! All that a document says reaches the target, unless a reading or a report objects. -/
namespace Criteria

open Compilation (onLog)

/-- The conditions that the field of a key makes. -/
def IsBlock (key : String) (block : List Call) : Prop :=
  block ≠ [] ∧ ∀ c ∈ block, c.isWhere = true ∧ c.column? = some key

/-- The calls account for a document that is read as a request: its fields, its order, its range. -/
def AccountFor (j : Json) (calls : List Call) : Prop :=
  ∃ blocks terms,
    List.Forall₂ IsBlock (j.entries.keys.filter (· ∉ ReadRequest.reserved)) blocks ∧
    List.Forall₂ OrderTerm.Written
      ((j.entries.get? "orderBy").toList.flatMap Json.orderParts) terms ∧
    calls = blocks.flatten ++ terms.map .orderBy ++
      ((j.entries.get? "limit").bind Json.nonNull?).toList.map (fun v => .limit (.ofJson v)) ++
      ((j.entries.get? "offset").bind Json.nonNull?).toList.map (fun v => .offset (.ofJson v))

variable {limit : Option Nat} {allowed : AllowList} {base : Option Path}

theorem ReadRequest.Says.accountFor {j : Json} {r : ReadRequest} (h : r.Says j.entries)
    (hv : (Validation.readAt base allowed r).isEmpty = true) :
    AccountFor j (onLog fun _ _ => Compilation.read (some r) allowed).calls := by
  obtain ⟨hallowed, hempty⟩ := Validation.fields_of_isEmpty hv
  obtain ⟨hfields, horder, hlimit, hoffset⟩ := h
  have hkeys : j.entries.keys.filter (· ∉ reserved) = r.fields.entries.map Prod.fst := by
    rw [hfields, List.map_map, Entries.keys, List.filter_map]
    rfl
  refine ⟨r.fields.entries.map fun e => Compilation.conditionCalls e.1 e.2,
    r.order.toList.flatMap OrderClause.toTerms, ?_, horder, ?_⟩
  · rw [hkeys, List.forall₂_map_left_iff, List.forall₂_map_right_iff, List.forall₂_same]
    intro e he
    refine ⟨fun hnil => ?_, fun c hc => Compilation.conditionCalls_where hc⟩
    exact hempty e he (Compilation.conditionCalls_eq_nil_iff.mp hnil)
  · rw [Compilation.calls_read, List.filter_eq_self.mpr hallowed, Compilation.rangeCalls, hlimit,
      hoffset]
    simp only [List.flatMap_def, Option.toList_map, List.map_map, List.append_assoc]
    rfl

/-- A field, a term or a bound that would be lost makes a strict reading fail or is reported. -/
theorem accountFor_of_strict (limit : Option Nat) (allowed : AllowList) (j : Json)
    (hj : j.WellFormed) :
    (∀ r, (ReadRequest.ofJson ⟨.strict, limit⟩ j).result = .ok r →
      (Validation.read allowed r).isEmpty = true →
        AccountFor j (onLog fun _ _ => Compilation.read (some r) allowed).calls) ∧
    (∀ r, (InsertRequest.ofJson ⟨.strict, limit⟩ j).result = .ok r →
      (Validation.insert allowed r).isEmpty = true →
        (onLog fun _ _ => Compilation.insert (some r) allowed).calls =
          j.entries.map fun e => .value e.1 (.ofJson e.2)) ∧
    (∀ r, (UpdateRequest.ofJson ⟨.strict, limit⟩ j).result = .ok r →
      (Validation.update allowed r).isEmpty = true →
        ∃ rest, (onLog fun _ _ => Compilation.update (some r) allowed).calls =
            ((j.entries.filter fun e => e.1 ≠ "queryOptions").map
              fun e => .set e.1 (.ofJson e.2)) ++ rest ∧
          match (j.entries.get? "queryOptions").bind Json.nonNull? with
          | none => rest = []
          | some q => AccountFor q rest) := by
  refine ⟨?_, ?_, ?_⟩
  · intro r hr hv
    exact (ReadRequest.says_of_read hj.nodup_entries hr).accountFor hv
  · intro r hr hv
    have hfields := InsertRequest.entries_of_ofJson hj.nodup_entries hr
    have hallowed := Validation.insert_isEmpty hv
    rw [Compilation.calls_insert, List.filter_eq_self.mpr hallowed, hfields, List.map_map]
    rfl
  · intro r hr hv
    obtain ⟨hfields, hselection⟩ := UpdateRequest.says_of_ofJson hj hr
    obtain ⟨hallowed, hvs⟩ := Validation.update_isEmpty hv
    refine ⟨(onLog fun _ _ => Compilation.read r.selection allowed).calls, ?_, ?_⟩
    · rw [Compilation.calls_update, List.filter_eq_self.mpr hallowed, hfields, List.map_map]
      rfl
    · generalize (j.entries.get? "queryOptions").bind Json.nonNull? = query at hselection ⊢
      generalize r.selection = selection at hselection hvs ⊢
      cases hselection with
      | none => rfl
      | some h => exact h.accountFor (hvs _ rfl)

/-- As a request to read its field `queryOptions` is data, as an update it has a selection. -/
def sampleDocument : Json :=
  .object [("id", .array [.number (.int 1 (by decide)), .null]), ("orderBy", .string "id"),
    ("limit", .number (.int 10 (by decide))),
    ("queryOptions", .object [("id", .bool true), ("offset", .number (.int 2 (by decide)))])]

theorem accountFor_sampleDocument :
    let allowed := AllowList.ofList ["id", "orderBy", "limit", "queryOptions"]
    sampleDocument.WellFormed ∧
    (∃ r, (ReadRequest.ofJson ⟨.strict, some 32⟩ sampleDocument).result = .ok r ∧
      (Validation.read allowed r).isEmpty = true ∧
      AccountFor sampleDocument (onLog fun _ _ => Compilation.read (some r) allowed).calls) ∧
    (∃ r, (InsertRequest.ofJson ⟨.strict, some 32⟩ sampleDocument).result = .ok r ∧
      (Validation.insert allowed r).isEmpty = true ∧
      (onLog fun _ _ => Compilation.insert (some r) allowed).calls =
        sampleDocument.entries.map fun e => .value e.1 (.ofJson e.2)) ∧
    ∃ r, (UpdateRequest.ofJson ⟨.strict, some 32⟩ sampleDocument).result = .ok r ∧
      (Validation.update allowed r).isEmpty = true ∧
      ∃ rest, (onLog fun _ _ => Compilation.update (some r) allowed).calls =
          ((sampleDocument.entries.filter fun e => e.1 ≠ "queryOptions").map
            fun e => .set e.1 (.ofJson e.2)) ++ rest ∧
        AccountFor
          (.object [("id", .bool true), ("offset", .number (.int 2 (by decide)))]) rest := by
  intro allowed
  have hj : sampleDocument.WellFormed := by
    simp [sampleDocument, Json.WellFormed, Json.WellFormedItems, Json.WellFormedEntries]
  obtain ⟨hread, hinsert, hupdate⟩ := accountFor_of_strict (some 32) allowed sampleDocument hj
  refine ⟨hj, ⟨_, rfl, rfl, hread _ rfl rfl⟩, ⟨_, rfl, rfl, hinsert _ rfl rfl⟩, ?_⟩
  exact ⟨_, rfl, rfl, hupdate _ rfl rfl⟩

end Criteria
