import Criteria.Proofs.Compilation.Calls
import Criteria.Proofs.Value.Shape
import Mathlib.Data.List.Forall2

/-! The calls that a request means, said without compiling it. -/
namespace Criteria

namespace Compilation

/-- An item of a conjunction and its call. -/
inductive ItemMeans (column : String) : Value → Call → Prop where
  | comparison (o : String) (v : Value) : ItemMeans column (.comparison o v) (.whereOp column o v)
  | list (vs : List Value) : ItemMeans column (.list vs) (.whereIn column vs)
  | plain {v : Value} (hc : v.isComparison = false) (hl : v.isList = false) :
    ItemMeans column v (.whereEq column v)

/-- The value of a field and the conditions that it sets. -/
inductive FieldMeans (column : String) : Value → List Call → Prop where
  | comparison (o : String) (v : Value) :
    FieldMeans column (.comparison o v) [.whereOp column o v]
  | empty : FieldMeans column (.list []) []
  | membership {vs : List Value} (hvs : vs ≠ []) (h : IsMembership vs) :
    FieldMeans column (.list vs) [.whereIn column vs]
  | conjunction {vs : List Value} {cs : List Call} (hvs : vs ≠ []) (h : ¬IsMembership vs)
    (hcs : List.Forall₂ (ItemMeans column) vs cs) : FieldMeans column (.list vs) cs
  | plain {v : Value} (hc : v.isComparison = false) (hl : v.isList = false) :
    FieldMeans column v [.whereEq column v]

def allowedFields (allowed : AllowList) (m : ColumnMap) : List (String × Value) :=
  m.entries.filter fun e => allowed.contains e.1

/-- A request to read and its calls: the conditions of the allowed fields in order, the terms of
the order, the limit, the offset. -/
inductive ReadMeans (allowed : AllowList) : Option ReadRequest → List Call → Prop where
  | none : ReadMeans allowed none []
  | some {r : ReadRequest} {blocks : List (List Call)}
    (h : List.Forall₂ (fun e => FieldMeans e.1 e.2) (allowedFields allowed r.fields) blocks) :
    ReadMeans allowed (some r) (blocks.flatten ++
      (r.order.toList.flatMap OrderClause.toTerms).map .orderBy ++
      r.limit.toList.map .limit ++ r.offset.toList.map .offset)

inductive InsertMeans (allowed : AllowList) : Option InsertRequest → List Call → Prop where
  | none : InsertMeans allowed none []
  | some (r : InsertRequest) : InsertMeans allowed (some r)
    ((allowedFields allowed r.fields).map fun e => .value e.1 e.2)

inductive UpdateMeans (allowed : AllowList) : Option UpdateRequest → List Call → Prop where
  | none : UpdateMeans allowed none []
  | some {r : UpdateRequest} {cs : List Call} (h : ReadMeans allowed r.selection cs) :
    UpdateMeans allowed (some r)
      ((allowedFields allowed r.fields).map (fun e => .set e.1 e.2) ++ cs)

variable {column : String} {cs : List Call} {allowed : AllowList}

theorem itemMeans_iff (v : Value) (c : Call) :
    ItemMeans column v c ↔ c = itemCall column v := by
  constructor
  · intro h
    cases h with
    | comparison o v => rfl
    | list vs => rfl
    | plain hc hl =>
      cases v with
      | comparison o v => cases hc
      | list vs => cases hl
      | _ => rfl
  · rintro rfl
    cases v with
    | comparison o v => exact .comparison o v
    | list vs => exact .list vs
    | _ => exact .plain rfl rfl

theorem forall₂_iff_eq_map {α β : Type} {R : α → β → Prop} {f : α → β}
    (h : ∀ a b, R a b ↔ b = f a) {as : List α} {bs : List β} :
    List.Forall₂ R as bs ↔ bs = as.map f := by
  have hR : R = fun a b => f a = b := by
    funext a b
    exact propext ((h a b).trans eq_comm)
  rw [hR, ← List.forall₂_map_left_iff, List.forall₂_eq_eq_eq, eq_comm]

theorem fieldMeans_iff (v : Value) (cs : List Call) :
    FieldMeans column v cs ↔ cs = conditionCalls column v := by
  constructor
  · intro h
    cases h with
    | comparison o v => rfl
    | empty => rfl
    | membership hvs h =>
      rw [conditionCalls, Shape.ofList?_eq_membership_iff.mpr ⟨hvs, h⟩]
      rfl
    | conjunction hvs h hcs =>
      rw [conditionCalls, Shape.ofList?_eq_conjunction_iff.mpr ⟨hvs, h⟩]
      exact (forall₂_iff_eq_map itemMeans_iff).mp hcs
    | plain hc hl =>
      cases v with
      | comparison o v => cases hc
      | list vs => cases hl
      | _ => rfl
  · rintro rfl
    cases v with
    | comparison o v => exact .comparison o v
    | list vs =>
      rw [conditionCalls]
      cases hs : Shape.ofList? vs with
      | none =>
        rw [Shape.ofList?_eq_none_iff.mp hs]
        exact .empty
      | some shape =>
        cases shape with
        | membership =>
          obtain ⟨hvs, h⟩ := Shape.ofList?_eq_membership_iff.mp hs
          exact .membership hvs h
        | conjunction =>
          obtain ⟨hvs, h⟩ := Shape.ofList?_eq_conjunction_iff.mp hs
          exact .conjunction hvs h ((forall₂_iff_eq_map itemMeans_iff).mpr rfl)
    | _ => exact .plain rfl rfl

theorem fieldsMean_iff {es : List (String × Value)} {blocks : List (List Call)} :
    List.Forall₂ (fun e => FieldMeans e.1 e.2) es blocks ↔
      blocks = es.map fun e => conditionCalls e.1 e.2 :=
  forall₂_iff_eq_map fun e : String × Value => fieldMeans_iff e.2

/-- What a request means is just what it compiles to on an empty log. -/
theorem readMeans_iff {r : Option ReadRequest} :
    ReadMeans allowed r cs ↔ cs = (onLog fun _ _ => read r allowed).calls := by
  constructor
  · intro h
    cases h with
    | none => rfl
    | @some r blocks h =>
      rw [calls_read, rangeCalls, fieldsMean_iff.mp h, allowedFields]
      simp only [List.flatMap_def, List.append_assoc]
  · rintro rfl
    cases r with
    | none => exact .none
    | some r =>
      have h : ReadMeans allowed (some r) _ := .some (fieldsMean_iff.mpr rfl)
      rw [calls_read, rangeCalls]
      simpa only [allowedFields, List.flatMap_def, List.append_assoc] using h

theorem insertMeans_iff {r : Option InsertRequest} :
    InsertMeans allowed r cs ↔ cs = (onLog fun _ _ => insert r allowed).calls := by
  constructor
  · intro h
    cases h with
    | none => rfl
    | some r => exact (calls_insert r).symm
  · rintro rfl
    cases r with
    | none => exact .none
    | some r =>
      rw [calls_insert]
      exact .some r

theorem updateMeans_iff {r : Option UpdateRequest} :
    UpdateMeans allowed r cs ↔ cs = (onLog fun _ _ => update r allowed).calls := by
  constructor
  · intro h
    cases h with
    | none => rfl
    | @some r cs h =>
      rw [calls_update, readMeans_iff.mp h]
      rfl
  · rintro rfl
    cases r with
    | none => exact .none
    | some r =>
      rw [calls_update]
      exact .some (readMeans_iff.mpr rfl)

/-- On any log a run succeeds and adds the calls that are meant, and no other calls are meant. -/
structure Adds (x : Compilation (List Call) Empty Unit) (meant : List Call → Prop) : Prop where
  ok : ∀ log, (x Target.log log).result = .ok ()
  state_iff : ∀ log final,
    (x Target.log log).state = final ↔ ∃ cs, meant cs ∧ final = log ++ cs

theorem adds_perform {js : List Step} {meant : List Call → Prop}
    (h : ∀ cs, meant cs ↔ cs = (onLog fun _ _ => perform js).calls) : Adds (perform js) meant := by
  constructor
  · intro log
    rw [perform_log]
  · intro log final
    simp only [h, exists_eq_left, calls_perform, perform_log]
    exact eq_comm

/-- Every request compiles to the calls that it means, whatever was called before. -/
theorem requests_add (allowed : AllowList) (r : Option ReadRequest) (d : Option DeleteRequest)
    (i : Option InsertRequest) (u : Option UpdateRequest) :
    Adds (read r allowed) (ReadMeans allowed r) ∧ Adds (select r allowed) (ReadMeans allowed r) ∧
      Adds (delete d allowed) (ReadMeans allowed d) ∧
      Adds (insert i allowed) (InsertMeans allowed i) ∧
      Adds (update u allowed) (UpdateMeans allowed u) := by
  have hread : ∀ r, Adds (read r allowed) (ReadMeans allowed r) := by
    intro r
    rw [read_eq]
    refine adds_perform fun cs => ?_
    rw [readMeans_iff]
    simp only [read_eq]
  refine ⟨hread r, hread r, hread d, ?_, ?_⟩
  · rw [insert_eq]
    refine adds_perform fun cs => ?_
    rw [insertMeans_iff]
    simp only [insert_eq]
  · rw [update_eq]
    refine adds_perform fun cs => ?_
    rw [updateMeans_iff]
    simp only [update_eq]

end Compilation

end Criteria
