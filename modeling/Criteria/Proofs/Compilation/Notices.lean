import Criteria.Proofs.Compilation.Filtering
import Mathlib.Algebra.GroupWithZero.Nat

/-! What the notices of a compilation say of its fields, and of the calls that they make. -/
namespace Criteria

/-- How many calls a list of the given length makes. -/
def Shape.callCount : Shape → Nat → Nat
  | membership, _ => 1
  | conjunction, n => n

/-- How many calls a notice announces. -/
def Notice.announced : Notice → Nat
  | list _ n shape => shape.callCount n
  | _ => 0

namespace Step

variable {js ks : List Step} {cs : List Call} {level : Level}

def conditions (js : List Step) : List Call := (js.filterMap call?).filter Call.isWhere

def noticesAt (level : Level) (js : List Step) : List Notice :=
  (js.filterMap notice?).filter (·.level = level)

theorem conditions_append : conditions (js ++ ks) = conditions js ++ conditions ks := by
  simp [conditions]

theorem noticesAt_append : noticesAt level (js ++ ks) = noticesAt level js ++ noticesAt level ks := by
  simp [noticesAt]

theorem mem_noticesAt_iff {n : Notice} :
    n ∈ noticesAt level js ↔ .notice n ∈ js ∧ n.level = level := by
  have hnotice : ∀ j : Step, j.notice? = some n ↔ j = .notice n := by
    intro j
    cases j <;> simp [notice?]
  simp [noticesAt, hnotice]

/-- Where all notices are of one level, each step is a call or a notice of that level. -/
theorem length_calls_add_noticesAt (h : ∀ n, .notice n ∈ js → n.level = level) :
    (js.filterMap call?).length + (noticesAt level js).length = js.length := by
  induction js with
  | nil => rfl
  | cons j js ih =>
    have hrest := ih fun n hn => h n (List.mem_cons_of_mem _ hn)
    cases j with
    | call c =>
      have hcalls : (call c :: js).filterMap call? = c :: js.filterMap call? := rfl
      have hnotices : noticesAt level (call c :: js) = noticesAt level js := rfl
      rw [hcalls, hnotices, List.length_cons, List.length_cons]
      omega
    | notice n =>
      have hcalls : (notice n :: js).filterMap call? = js.filterMap call? := rfl
      have hnotices : noticesAt level (notice n :: js) = n :: noticesAt level js :=
        List.filter_cons_of_pos (decide_eq_true (h n List.mem_cons_self))
      rw [hcalls, hnotices, List.length_cons, List.length_cons]
      omega

theorem noticesAt_calls : noticesAt level (cs.map .call) = [] := by
  induction cs with
  | nil => rfl
  | cons c cs ih => exact ih

theorem conditions_calls (h : ∀ c ∈ cs, c.isWhere = true) : conditions (cs.map .call) = cs := by
  rw [conditions, Compilation.filterMap_calls, List.filter_eq_self.mpr h]

theorem conditions_calls_eq_nil (h : ∀ c ∈ cs, c.isWhere = false) :
    conditions (cs.map .call) = [] := by
  rw [conditions, Compilation.filterMap_calls]
  exact List.filter_eq_nil_iff.mpr fun c hc => by simp [h c hc]

end Step

namespace Compilation

open Step (conditions conditions_append conditions_calls conditions_calls_eq_nil noticesAt
  noticesAt_append noticesAt_calls mem_noticesAt_iff length_calls_add_noticesAt)

/-- Why a field is skipped. What is not allowed is not looked into. -/
def skipMessage? (allowed : AllowList) (e : String × Value) : Option String :=
  if e.1 ∈ allowed then
    match e.2 with
    | .list [] => some "skipping empty list"
    | _ => none
  else some "skipping field not in allow-list"

/-- What is said of a field whose value is a list, before its calls. -/
def listNotice? (allowed : AllowList) (e : String × Value) : Option Notice :=
  if e.1 ∈ allowed then
    match e.2 with
    | .list vs => (Shape.ofList? vs).map (.list e.1 vs.length)
    | _ => none
  else none

/-- A field and the steps that it takes: conditions on its column, or one notice that it is
skipped. -/
inductive Accounted (allowed : AllowList) : String × Value → List Step → Prop where
  | notAllowed {column : String} (v : Value) (h : column ∉ allowed) :
    Accounted allowed (column, v) [.notice (.notAllowed column)]
  | emptyList {column : String} (h : column ∈ allowed) :
    Accounted allowed (column, .list []) [.notice (.emptyList column)]
  | list {column : String} {vs : List Value} {shape : Shape} {cs : List Call}
    (h : column ∈ allowed) (hvs : vs ≠ []) (hshape : Shape.ofList? vs = some shape)
    (hcs : ∀ c ∈ cs, c.isWhere = true ∧ c.column? = some column) (hne : cs ≠ [])
    (hcount : cs.length = shape.callCount vs.length) :
    Accounted allowed (column, .list vs) (.notice (.list column vs.length shape) :: cs.map .call)
  | plain {column : String} {v : Value} {c : Call} (h : column ∈ allowed)
    (hv : v.isList = false) (hc : c.isWhere = true ∧ c.column? = some column) :
    Accounted allowed (column, v) [.call c]

/-- The notices of the steps are those of the fields in their order, and the conditions are as many
as the notices say. -/
structure Tallies (allowed : AllowList) (es : List (String × Value)) (js : List Step) : Prop where
  skipped : (noticesAt .debug js).map (fun n => (n.column, n.message?)) =
    es.filterMap fun e => (skipMessage? allowed e).map fun message => (e.1, some message)
  lists : noticesAt .trace js = es.filterMap (listNotice? allowed)
  count : ((conditions js).length : Int) = es.length - (noticesAt .debug js).length -
    (noticesAt .trace js).length + ((noticesAt .trace js).map Notice.announced).sum

variable {allowed : AllowList} {e : String × Value} {es : List (String × Value)}
  {block js : List Step} {blocks : List (List Step)} {cs : List Call} {column : String} {v : Value}

theorem accounted_conditionSteps (h : column ∈ allowed) :
    Accounted allowed (column, v) (conditionSteps column v) := by
  cases v with
  | list vs =>
    rw [conditionSteps]
    cases hs : Shape.ofList? vs with
    | none =>
      obtain rfl := Shape.ofList?_eq_none_iff.mp hs
      exact .emptyList h
    | some shape =>
      have hvs : vs ≠ [] := fun hvs => by simp [Shape.ofList?_eq_none_iff.mpr hvs] at hs
      have hcalls : listCalls column vs shape = conditionCalls column (.list vs) := by
        rw [conditionCalls, hs]
        rfl
      refine .list h hvs hs ?_ ?_ ?_
      · rw [hcalls]
        exact fun c hc => conditionCalls_where hc
      · rw [hcalls]
        exact mt conditionCalls_eq_nil_iff.mp (by simpa using hvs)
      · cases shape <;> simp [listCalls, Shape.callCount]
  | _ => exact .plain h rfl itemCall_where

theorem accounted_fieldSteps (allowed : AllowList) (e : String × Value) :
    Accounted allowed e (fieldSteps allowed conditionSteps e) := by
  obtain ⟨column, v⟩ := e
  rw [fieldSteps]
  split
  · next h => exact accounted_conditionSteps (AllowList.contains_iff.mp h)
  · next h => exact .notAllowed v (mt AllowList.contains_iff.mpr h)

theorem tallies_skipped (n : Notice) {message : String} (hlevel : n.level = .debug)
    (hmessage : n.message? = some message)
    (hskip : skipMessage? allowed (n.column, v) = some message)
    (hlist : listNotice? allowed (n.column, v) = none) :
    Tallies allowed [(n.column, v)] [.notice n] := by
  have hdebug : noticesAt .debug [.notice n] = [n] :=
    List.filter_cons_of_pos (decide_eq_true hlevel)
  have htrace : noticesAt .trace [.notice n] = [] :=
    List.filter_cons_of_neg (by simp [hlevel])
  have hcalls : conditions [.notice n] = [] := rfl
  constructor
  · simp [hdebug, hmessage, hskip]
  · simp [htrace, hlist]
  · simp [hdebug, htrace, hcalls]

theorem Accounted.tallies (h : Accounted allowed e block) : Tallies allowed [e] block := by
  cases h with
  | notAllowed v h => exact tallies_skipped (.notAllowed _) rfl rfl (if_neg h) (if_neg h)
  | emptyList h => exact tallies_skipped (.emptyList _) rfl rfl (if_pos h) (if_pos h)
  | @list column vs shape cs h hvs hshape hcs hne hcount =>
    have hskip : skipMessage? allowed (column, .list vs) = none := by
      cases vs with
      | nil => exact (hvs rfl).elim
      | cons v vs => simp [skipMessage?, h]
    have hdebug : noticesAt .debug (.notice (.list column vs.length shape) :: cs.map .call) = [] :=
      noticesAt_calls
    have htrace : noticesAt .trace (.notice (.list column vs.length shape) :: cs.map .call) =
        [.list column vs.length shape] := congrArg _ noticesAt_calls
    have hcalls : conditions (.notice (.list column vs.length shape) :: cs.map .call) = cs :=
      conditions_calls fun c hc => (hcs c hc).1
    constructor
    · simp [hdebug, hskip]
    · simp [htrace, listNotice?, h, hshape]
    · simp [hdebug, htrace, hcalls, hcount, Notice.announced]
  | @plain column v c h hv hc =>
    have hskip : skipMessage? allowed (column, v) = none := by
      cases v with
      | list vs => cases hv
      | _ => exact if_pos h
    have hlist : listNotice? allowed (column, v) = none := by
      cases v with
      | list vs => cases hv
      | _ => exact if_pos h
    have hnone : ∀ level, noticesAt level [.call c] = [] := fun _ => rfl
    have hcalls : conditions [.call c] = [c] := List.filter_cons_of_pos hc.1
    constructor
    · simp [hnone, hskip]
    · simp [hnone, hlist]
    · simp [hnone, hcalls]

theorem tallies_nil : Tallies allowed [] [] := by
  constructor <;> rfl

theorem Tallies.cons (h : Accounted allowed e block) (hjs : Tallies allowed es js) :
    Tallies allowed (e :: es) (block ++ js) := by
  have he := h.tallies
  constructor
  · rw [noticesAt_append, List.map_append, he.skipped, hjs.skipped, ← List.filterMap_append]
    rfl
  · rw [noticesAt_append, he.lists, hjs.lists, ← List.filterMap_append]
    rfl
  · have hblock := he.count
    have hrest := hjs.count
    simp only [noticesAt_append, conditions_append, List.length_append, List.length_cons,
      List.map_append, List.sum_append, List.length_nil] at hblock hrest ⊢
    omega

theorem tallies_blocks (h : List.Forall₂ (Accounted allowed) es blocks) :
    Tallies allowed es blocks.flatten := by
  induction h with
  | nil => exact tallies_nil
  | cons h _ ih => exact ih.cons h

theorem Tallies.append_calls (h : Tallies allowed es js) (hcs : ∀ c ∈ cs, c.isWhere = false) :
    Tallies allowed es (js ++ cs.map .call) := by
  have hnotices : ∀ level, noticesAt level (js ++ cs.map .call) = noticesAt level js := by
    intro level
    rw [noticesAt_append, noticesAt_calls, List.append_nil]
  have hconditions : conditions (js ++ cs.map .call) = conditions js := by
    rw [conditions_append, conditions_calls_eq_nil hcs, List.append_nil]
  constructor
  · rw [hnotices]
    exact h.skipped
  · rw [hnotices]
    exact h.lists
  · rw [hnotices, hnotices, hconditions]
    exact h.count

/-- The steps of a compilation that sets conditions: those of the fields, each accounted for, then
calls that are no conditions. -/
structure AccountsForConditions (allowed : AllowList) (m : ColumnMap) (js : List Step) : Prop where
  fields : ∃ (blocks : List (List Step)) (rest : List Call), js = blocks.flatten ++ rest.map .call ∧
    List.Forall₂ (Accounted allowed) m.entries blocks ∧ ∀ c ∈ rest, c.isWhere = false
  tallies : Tallies allowed m.entries js

/-- A field is stored, or a notice says that it is not allowed. -/
def storeStep (allowed : AllowList) (store : String → Value → Call) (e : String × Value) : Step :=
  if e.1 ∈ allowed then .call (store e.1 e.2) else .notice (.notAllowed e.1)

structure AccountsForValues (allowed : AllowList) (m : ColumnMap) (store : String → Value → Call)
    (js : List Step) : Prop where
  fields : js = m.entries.map (storeStep allowed store)
  count : ((js.filterMap Step.call?).length : Int) = m.entries.length - (noticesAt .debug js).length
  lists : noticesAt .trace js = []

theorem journal_perform {js : List Step} : (onLog fun _ _ => perform js).journal = js := by
  rw [onLog, perform_log]

theorem accountsForConditions_read (allowed : AllowList) (r : ReadRequest) :
    AccountsForConditions allowed r.fields (onLog fun _ _ => read (some r) allowed).journal := by
  have hfields : List.Forall₂ (Accounted allowed) r.fields.entries
      (r.fields.entries.map (fieldSteps allowed conditionSteps)) := by
    rw [List.forall₂_map_right_iff]
    exact List.forall₂_same.mpr fun e _ => accounted_fieldSteps allowed e
  have hjournal : (onLog fun _ _ => read (some r) allowed).journal =
      (r.fields.entries.map (fieldSteps allowed conditionSteps)).flatten ++
        (rangeCalls r).map .call := by
    rw [← List.flatMap_def]
    simp only [read_eq, journal_perform, readSteps, Option.toList_some, List.flatMap_singleton,
      fieldsSteps]
  have hrange : ∀ c ∈ rangeCalls r, c.isWhere = false := fun _ => isWhere_of_mem_rangeCalls
  rw [hjournal]
  exact ⟨⟨_, _, rfl, hfields, hrange⟩, (tallies_blocks hfields).append_calls hrange⟩

theorem storeStep_eq_notice {store : String → Value → Call} {n : Notice}
    (h : storeStep allowed store e = .notice n) : n = .notAllowed e.1 := by
  rw [storeStep] at h
  split at h
  · cases h
  · exact (Step.notice.inj h).symm

theorem fieldSteps_store (allowed : AllowList) (store : String → Value → Call) :
    fieldSteps allowed (fun column v => [.call (store column v)]) =
      fun e => [storeStep allowed store e] := by
  funext e
  simp only [fieldSteps, storeStep, AllowList.contains_iff]
  split <;> rfl

theorem accountsForValues_fieldsSteps (allowed : AllowList) (m : ColumnMap)
    (store : String → Value → Call) :
    AccountsForValues allowed m store
      (fieldsSteps m allowed fun column v => [.call (store column v)]) := by
  rw [fieldsSteps, fieldSteps_store, ← List.map_eq_flatMap]
  have hdebug : ∀ n, .notice n ∈ m.entries.map (storeStep allowed store) → n.level = .debug := by
    intro n hn
    obtain ⟨e, -, he⟩ := List.mem_map.mp hn
    rw [storeStep_eq_notice he]
    rfl
  constructor
  · rfl
  · have h := length_calls_add_noticesAt hdebug
    rw [List.length_map] at h
    omega
  · refine List.eq_nil_iff_forall_not_mem.mpr fun n hn => ?_
    obtain ⟨hn, htrace⟩ := mem_noticesAt_iff.mp hn
    rw [hdebug n hn] at htrace
    cases htrace

/-- Every field of a request is accounted for: it is compiled, or one notice says why not. -/
theorem requests_accountForFields (allowed : AllowList) (r : ReadRequest) (i : InsertRequest)
    (u : UpdateRequest) :
    AccountsForConditions allowed r.fields (onLog fun _ _ => read (some r) allowed).journal ∧
      AccountsForValues allowed i.fields .value
        (onLog fun _ _ => insert (some i) allowed).journal ∧
      ∃ set, AccountsForValues allowed u.fields .set set ∧
        (onLog fun _ _ => update (some u) allowed).journal =
          set ++ (onLog fun _ _ => read u.selection allowed).journal := by
  refine ⟨accountsForConditions_read allowed r, ?_, _,
    accountsForValues_fieldsSteps allowed u.fields .set, ?_⟩
  · have h := accountsForValues_fieldsSteps allowed i.fields .value
    simpa only [insert_eq, journal_perform, insertSteps, Option.toList_some,
      List.flatMap_singleton] using h
  · simp only [update_eq, read_eq, journal_perform, updateSteps, Option.toList_some,
      List.flatMap_singleton]

end Compilation

end Criteria
