import Criteria.Compilation.Request

/-! Compilations as plain lists of steps. -/
namespace Criteria

namespace Compilation

variable {σ ε : Type} {t : Target σ ε} {s s' : σ} {c : Call} {e : ε} {js ks : List Step}

/-- Takes the steps in order, up to the first call that the target refuses. -/
def perform (js : List Step) : Compilation σ ε Unit :=
  js.forM fun
    | .call c => call c
    | .notice n => notice n

theorem perform_nil : (perform [] : Compilation σ ε Unit) t s = ⟨s, [], .ok ()⟩ := rfl

theorem perform_notice (n : Notice) : perform (.notice n :: js) t s =
    ⟨(perform js t s).state, .notice n :: (perform js t s).journal, (perform js t s).result⟩ := rfl

theorem perform_call_ok (h : t.receive s c = (s', .ok ())) : perform (.call c :: js) t s =
    ⟨(perform js t s').state, .call c :: (perform js t s').journal, (perform js t s').result⟩ := by
  change Compilation.bind (call c) (fun _ => perform js) t s = _
  simp [Compilation.bind, call, h]

theorem perform_call_error (h : t.receive s c = (s', .error e)) :
    perform (.call c :: js) t s = ⟨s', [.call c], .error e⟩ := by
  change Compilation.bind (call c) (fun _ => perform js) t s = _
  simp [Compilation.bind, call, h]

theorem perform_append :
    (perform (js ++ ks) : Compilation σ ε Unit) = perform js >>= fun _ => perform ks :=
  List.forM_append

theorem perform_singleton_call : (perform [.call c] : Compilation σ ε Unit) = call c := by
  simp [perform]

theorem perform_singleton_notice (n : Notice) :
    (perform [.notice n] : Compilation σ ε Unit) = notice n := by
  simp [perform]

theorem perform_flatMap {α : Type} (f : α → List Step) (as : List α) :
    (perform (as.flatMap f) : Compilation σ ε Unit) = as.forM fun a => perform (f a) := by
  induction as with
  | nil => rfl
  | cons a as ih =>
    rw [List.flatMap_cons, perform_append, ih]
    rfl

theorem perform_calls (calls : List Call) :
    (perform (calls.map .call) : Compilation σ ε Unit) = calls.forM call := by
  induction calls with
  | nil => rfl
  | cons c calls ih =>
    change (call c >>= fun _ => perform (calls.map .call)) = _
    rw [ih]
    rfl

/-- The log takes every call. -/
theorem perform_log (calls : List Call) :
    perform js Target.log calls = ⟨calls ++ js.filterMap Step.call?, js, .ok ()⟩ := by
  induction js generalizing calls with
  | nil => simp [perform_nil]
  | cons j js ih =>
    cases j with
    | notice n =>
      rw [perform_notice, ih]
      rfl
    | call c =>
      have h : Target.log.receive calls c = (calls ++ [c], .ok ()) := rfl
      rw [perform_call_ok h, ih, List.append_assoc]
      rfl

/-- The run on an empty log. -/
abbrev onLog (x : ∀ σ ε : Type, Compilation σ ε Unit) : Run (List Call) Empty Unit :=
  x _ _ Target.log []

/-- The call for an item of a conjunction, and for any field that is no list. -/
def itemCall (column : String) : Value → Call
  | .comparison o v => .whereOp column o v
  | .list vs => .whereIn column vs
  | v => .whereEq column v

def listCalls (column : String) (vs : List Value) : Shape → List Call
  | .membership => [.whereIn column vs]
  | .conjunction => vs.map (itemCall column)

def conditionSteps (column : String) : Value → List Step
  | .list vs =>
    match Shape.ofList? vs with
    | none => [.notice (.emptyList column)]
    | some shape =>
      .notice (.list column vs.length shape) :: (listCalls column vs shape).map .call
  | v => [.call (itemCall column v)]

def fieldSteps (allowed : AllowList) (f : String → Value → List Step) (e : String × Value) :
    List Step :=
  if allowed.contains e.1 then f e.1 e.2 else [.notice (.notAllowed e.1)]

def fieldsSteps (m : ColumnMap) (allowed : AllowList) (f : String → Value → List Step) :
    List Step :=
  m.entries.flatMap (fieldSteps allowed f)

/-- What follows the conditions. -/
def rangeCalls (r : ReadRequest) : List Call :=
  (r.order.toList.flatMap OrderClause.toTerms).map .orderBy ++ r.limit.toList.map .limit ++
    r.offset.toList.map .offset

def readSteps (request : Option ReadRequest) (allowed : AllowList) : List Step :=
  request.toList.flatMap fun r =>
    fieldsSteps r.fields allowed conditionSteps ++ (rangeCalls r).map .call

def insertSteps (request : Option InsertRequest) (allowed : AllowList) : List Step :=
  request.toList.flatMap fun r =>
    fieldsSteps r.fields allowed fun column v => [.call (.value column v)]

def updateSteps (request : Option UpdateRequest) (allowed : AllowList) : List Step :=
  request.toList.flatMap fun r =>
    fieldsSteps r.fields allowed (fun column v => [.call (.set column v)]) ++
      readSteps r.selection allowed

variable {column : String} {m : ColumnMap} {allowed : AllowList}

theorem item_eq (v : Value) :
    (item column v : Compilation σ ε Unit) = call (itemCall column v) := by
  cases v <;> rfl

theorem items_eq (vs : List Value) :
    (vs.forM (item column) : Compilation σ ε Unit) = (vs.map (itemCall column)).forM call := by
  induction vs with
  | nil => rfl
  | cons v vs ih =>
    change (item column v >>= fun _ => vs.forM (item column)) =
      call (itemCall column v) >>= fun _ => (vs.map (itemCall column)).forM call
    rw [ih, item_eq]

theorem condition_eq (v : Value) :
    (condition column v : Compilation σ ε Unit) = perform (conditionSteps column v) := by
  cases v with
  | list vs =>
    rw [condition, conditionSteps]
    cases hs : Shape.ofList? vs with
    | none => exact (perform_singleton_notice _).symm
    | some shape =>
      change (notice (.list column vs.length shape) >>= fun _ => _) =
        notice (.list column vs.length shape) >>= fun _ => perform _
      rw [perform_calls]
      congr
      funext _
      cases shape with
      | membership => exact bind_pure_unit.symm
      | conjunction => exact items_eq vs
  | _ => exact perform_singleton_call.symm

theorem fields_eq {f : String → Value → Compilation σ ε Unit} {g : String → Value → List Step}
    (h : ∀ column v, f column v = perform (g column v)) :
    fields m allowed f = perform (fieldsSteps m allowed g) := by
  rw [fields, fieldsSteps, perform_flatMap]
  congr
  funext e
  rw [fieldSteps]
  split
  · exact h e.1 e.2
  · exact (perform_singleton_notice _).symm

theorem order_eq (o : OrderClause) :
    (order o : Compilation σ ε Unit) = (o.toTerms.map .orderBy).forM call := by
  cases o with
  | column name | term t => exact bind_pure_unit.symm
  | terms ts => exact List.forM_map.symm

theorem read_eq (request : Option ReadRequest) :
    (read request allowed : Compilation σ ε Unit) = perform (readSteps request allowed) := by
  cases request with
  | none => rfl
  | some r =>
    obtain ⟨fields, order, limit, offset⟩ := r
    simp only [read, readSteps, Option.toList_some, List.flatMap_singleton, perform_append,
      rangeCalls, List.map_append, perform_calls, fields_eq fun _ => condition_eq]
    congr
    funext _
    cases order <;> cases limit <;> cases offset <;> simp [order_eq]

theorem insert_eq (request : Option InsertRequest) :
    (insert request allowed : Compilation σ ε Unit) = perform (insertSteps request allowed) := by
  cases request with
  | none => rfl
  | some r =>
    rw [insert, insertSteps, Option.toList_some, List.flatMap_singleton]
    exact fields_eq fun column v => perform_singleton_call.symm

theorem update_eq (request : Option UpdateRequest) :
    (update request allowed : Compilation σ ε Unit) = perform (updateSteps request allowed) := by
  cases request with
  | none => rfl
  | some r =>
    rw [update, updateSteps, Option.toList_some, List.flatMap_singleton, perform_append, read_eq]
    rw [fields_eq fun column v => perform_singleton_call.symm]

end Compilation

end Criteria
