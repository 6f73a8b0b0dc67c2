import Criteria.Proofs.ColumnMap.Ordered
import Criteria.Proofs.Reading.Fields

/-! Whatever is done with the fields of a request, they stay a map in insertion order. -/
namespace Criteria

/-- The fields of a request that is read. A reading that fails leaves those that there are. -/
def Reading.fieldsOr {α : Type} (x : Reading α) (fields : α → ColumnMap) (m : ColumnMap) :
    ColumnMap :=
  match x.result with
  | .ok a => fields a
  | .error _ => m

theorem Reading.fieldsOr_represents {α : Type} {x : Reading α} {fields : α → ColumnMap}
    {pairs : List (String × Value)} {m : ColumnMap} {r : OrderedMap} (h : m.Represents r)
    (hx : ∀ a, x.result = .ok a → fields a = .ofList pairs) :
    (x.fieldsOr fields m).Represents (if x.result.isOk then .ofPairs pairs else r) := by
  rw [fieldsOr]
  cases hr : x.result with
  | ok a =>
    have hok : (Except.ok a : Except Error α).isOk = true := rfl
    rw [if_pos hok]
    dsimp only
    rw [hx a hr]
    exact ColumnMap.represents_ofList pairs
  | error e => exact h

namespace ColumnMap

/-- What can be done with the fields of a request, whatever else there is in it. -/
inductive Operation where
  | set (column : String) (v : Value)
  | remove (column : String)
  | collect (pairs : List (String × Value))
  | filter (rest : ReadRequest) (column : String) (v : Value)
  | filter? (rest : ReadRequest) (column : String) (v : Option Value)
  | value (column : String) (v : Value)
  | value? (column : String) (v : Option Value)
  | assign (rest : UpdateRequest) (column : String) (v : Value)
  | assign? (rest : UpdateRequest) (column : String) (v : Option Value)
  | read (policy : Policy) (base : Option Path) (j : Json)
  | readInsert (policy : Policy) (j : Json)
  | readUpdate (policy : Policy) (j : Json)

namespace Operation

/-- What an operation returns, and the fields after it. -/
def apply (m : ColumnMap) : Operation → Option Value × ColumnMap
  | set column v => (none, m.insert column v)
  | remove column => m.remove column
  | collect pairs => (none, .ofList pairs)
  | filter rest column v => (none, ({ rest with fields := m }.filter column v).fields)
  | filter? rest column v => (none, ({ rest with fields := m }.filter? column v).fields)
  | value column v => (none, (InsertRequest.value ⟨m⟩ column v).fields)
  | value? column v => (none, (InsertRequest.value? ⟨m⟩ column v).fields)
  | assign rest column v => (none, ({ rest with fields := m }.assign column v).fields)
  | assign? rest column v => (none, ({ rest with fields := m }.assign? column v).fields)
  | read policy base j => (none, (ReadRequest.read policy base j).fieldsOr (·.fields) m)
  | readInsert policy j => (none, (InsertRequest.ofJson policy j).fieldsOr (·.fields) m)
  | readUpdate policy j => (none, (UpdateRequest.ofJson policy j).fieldsOr (·.fields) m)

/-- The same with a map in order. -/
def applyOrdered (r : OrderedMap) : Operation → Option Value × OrderedMap
  | set column v | filter _ column v | value column v | assign _ column v => (none, r.put column v)
  | filter? _ column v | value? column v | assign? _ column v => (none, v.elim r (r.put column))
  | remove column => (r.value column, r.delete column)
  | collect pairs => (none, .ofPairs pairs)
  | read policy base j =>
    let pairs := fieldPairs policy.maxDepth ReadRequest.reserved j.entries
    (none, if (ReadRequest.read policy base j).result.isOk then .ofPairs pairs else r)
  | readInsert policy j =>
    let pairs := fieldPairs policy.maxDepth [] j.entries
    (none, if (InsertRequest.ofJson policy j).result.isOk then .ofPairs pairs else r)
  | readUpdate policy j =>
    let pairs := fieldPairs policy.maxDepth ["queryOptions"] j.entries
    (none, if (UpdateRequest.ofJson policy j).result.isOk then .ofPairs pairs else r)

/-- One operation after the other, with what each of them returns. -/
def run {σ : Type} (step : σ → Operation → Option Value × σ) :
    List Operation → σ → List (Option Value) × σ
  | [], s => ([], s)
  | op :: ops, s =>
    let (v, t) := step s op
    let (vs, u) := run step ops t
    (v :: vs, u)

variable {m : ColumnMap} {r : OrderedMap}

theorem returns_apply (h : m.Represents r) (op : Operation) :
    (op.apply m).1 = (op.applyOrdered r).1 := by
  cases op with
  | remove column =>
    rw [apply, ColumnMap.remove_eq]
    exact h.value column
  | _ => rfl

theorem represents_apply (h : m.Represents r) (op : Operation) :
    (op.apply m).2.Represents (op.applyOrdered r).2 := by
  cases op with
  | set | filter | value | assign => exact h.insert
  | filter? | value? | assign? => exact h.insert?
  | remove column =>
    rw [apply, ColumnMap.remove_eq]
    exact h.erase
  | collect pairs => exact represents_ofList pairs
  | read policy base j =>
    refine Reading.fieldsOr_represents h fun a ha => ?_
    rw [ReadRequest.read_eq, Reading.ofDefects_eq_ok_iff] at ha
    rw [← ha.2, ReadRequest.fields_kept]
  | readInsert policy j =>
    refine Reading.fieldsOr_represents h fun a ha => ?_
    rw [InsertRequest.ofJson_eq, Reading.ofDefects_eq_ok_iff] at ha
    rw [← ha.2, InsertRequest.fields_kept]
  | readUpdate policy j =>
    refine Reading.fieldsOr_represents h fun a ha => ?_
    rw [UpdateRequest.ofJson_eq, Reading.ofDefects_eq_ok_iff] at ha
    rw [← ha.2, UpdateRequest.fields_kept]

theorem nodup_applyOrdered (h : r.columns.Nodup) (op : Operation) :
    (op.applyOrdered r).2.columns.Nodup := by
  have hite : ∀ (c : Bool) pairs,
      (if c then OrderedMap.ofPairs pairs else r).columns.Nodup := by
    intro c pairs
    cases c
    · exact h
    · exact OrderedMap.nodup_ofPairs pairs
  cases op with
  | set | filter | value | assign => exact OrderedMap.nodup_put h
  | filter? _ column v | value? column v | assign? _ column v =>
    cases v with
    | none => exact h
    | some v => exact OrderedMap.nodup_put h
  | remove column => exact OrderedMap.nodup_delete h
  | collect pairs => exact OrderedMap.nodup_ofPairs pairs
  | read | readInsert | readUpdate => exact hite _ _

theorem run_eq (ops : List Operation) (h : m.Represents r) :
    (run apply ops m).1 = (run applyOrdered ops r).1 ∧
      (run apply ops m).2.Represents (run applyOrdered ops r).2 := by
  induction ops generalizing m r with
  | nil => exact ⟨rfl, h⟩
  | cons op ops ih =>
    obtain ⟨hreturns, hrun⟩ := ih (represents_apply h op)
    exact ⟨congr (congrArg List.cons (returns_apply h op)) hreturns, hrun⟩

theorem nodup_run (ops : List Operation) (h : r.columns.Nodup) :
    (run applyOrdered ops r).2.columns.Nodup := by
  induction ops generalizing r with
  | nil => exact h
  | cons op ops ih => exact ih (nodup_applyOrdered h op)

/-- After any run no column is there twice, and all is as in a map in order. -/
theorem run_ordered (ops : List Operation) :
    (run apply ops ∅).2.columns.Nodup ∧
      (run apply ops ∅).1 = (run applyOrdered ops .empty).1 ∧
      (run apply ops ∅).2.Represents (run applyOrdered ops .empty).2 := by
  obtain ⟨hreturns, hrun⟩ := run_eq ops represents_empty
  refine ⟨?_, hreturns, hrun⟩
  rw [hrun.columns]
  exact nodup_run ops List.nodup_nil

end Operation

end ColumnMap

end Criteria
