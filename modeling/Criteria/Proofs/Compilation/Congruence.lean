import Criteria.Proofs.AllowList
import Criteria.Proofs.Compilation.Steps
import Criteria.Proofs.Request.Equality
import Criteria.Proofs.Value.Shape

/-! What is compiled from equal requests with equal allow-lists differs at most in the spelling of
its values. -/
namespace Criteria

section

variable {c d o p : String} {v w : Value} {vs ws : List Value}

namespace Call

@[simp]
theorem whereEq_beq : (whereEq c v == whereEq d w) = (c == d && v == w) := rfl

@[simp]
theorem whereOp_beq : (whereOp c o v == whereOp d p w) = (c == d && o == p && v == w) := rfl

@[simp]
theorem whereIn_beq : (whereIn c vs == whereIn d ws) = (c == d && vs == ws) := rfl

@[simp]
theorem orderBy_beq {s t : OrderTerm} : (orderBy s == orderBy t) = (s == t) := rfl

@[simp]
theorem limit_beq : (limit v == limit w) = (v == w) := rfl

@[simp]
theorem offset_beq : (offset v == offset w) = (v == w) := rfl

@[simp]
theorem value_beq : (value c v == value d w) = (c == d && v == w) := rfl

@[simp]
theorem set_beq : (set c v == set d w) = (c == d && v == w) := rfl

end Call

theorem Shape.ofList?_eq_of_beq (h : (vs == ws) = true) : ofList? vs = ofList? ws := by
  have hitems := beq_iff_forall₂.mp h
  refine ofList?_eq_of_kinds ?_ ?_
  · rw [← List.forall₂_eq_eq_eq, List.forall₂_map_left_iff, List.forall₂_map_right_iff]
    exact hitems.imp fun _ _ => Value.kind_eq_of_beq
  · cases hitems with
    | nil => rfl
    | cons hvw _ => exact Value.isComparison_eq_of_beq hvw

end

/-- Calls that are equal, and notices that are the same. -/
inductive Step.Matches : Step → Step → Prop where
  | call {c d : Call} (h : (c == d) = true) : Matches (.call c) (.call d)
  | notice (n : Notice) : Matches (.notice n) (.notice n)

namespace Compilation

variable {v w : Value} {vs ws : List Value} {column : String} {a b : AllowList} {m n : ColumnMap}
  {f : String → Value → List Step} {cs ds : List Call} {r s : ReadRequest}

theorem forall₂_call (h : List.Forall₂ (· == ·) cs ds) :
    List.Forall₂ Step.Matches (cs.map .call) (ds.map .call) := by
  rw [List.forall₂_map_left_iff, List.forall₂_map_right_iff]
  exact h.imp fun _ _ => .call

theorem itemCall_congr (h : (v == w) = true) :
    (itemCall column v == itemCall column w) = true := by
  cases Value.beq_iff_matches.mp h with
  | comparison o hvw => simpa [itemCall] using hvw
  | list hvs => simpa [itemCall] using hvs
  | _ => simpa [itemCall] using h

theorem listCalls_congr (h : (vs == ws) = true) (shape : Shape) :
    List.Forall₂ (· == ·) (listCalls column vs shape)
      (listCalls column ws shape) := by
  cases shape with
  | membership => simpa [listCalls] using h
  | conjunction =>
    rw [listCalls, listCalls, List.forall₂_map_left_iff, List.forall₂_map_right_iff]
    exact (beq_iff_forall₂.mp h).imp fun _ _ => itemCall_congr

theorem conditionSteps_congr (h : (v == w) = true) :
    List.Forall₂ Step.Matches (conditionSteps column v) (conditionSteps column w) := by
  have hitem : List.Forall₂ Step.Matches [.call (itemCall column v)] [.call (itemCall column w)] :=
    .cons (.call (itemCall_congr h)) .nil
  cases Value.beq_iff_matches.mp h with
  | @list vs ws hvs =>
    have hlength : vs.length = ws.length := (beq_iff_forall₂.mp hvs).length_eq
    rw [conditionSteps, conditionSteps, ← Shape.ofList?_eq_of_beq hvs]
    cases Shape.ofList? vs with
    | none => exact .cons (.notice _) .nil
    | some shape =>
      rw [hlength]
      exact .cons (.notice _) (forall₂_call (listCalls_congr hvs shape))
  | _ => exact hitem

/-- A field is skipped for its column alone. -/
theorem fieldsSteps_congr (hab : (a == b) = true) (hmn : m.Related (· == ·) n)
    (hf : ∀ column v w, (v == w) = true → List.Forall₂ Step.Matches (f column v) (f column w)) :
    List.Forall₂ Step.Matches (fieldsSteps m a f) (fieldsSteps n b f) := by
  refine List.rel_flatMap hmn ?_
  rintro ⟨column, v⟩ ⟨_, w⟩ ⟨rfl, hvw⟩
  rw [fieldSteps, fieldSteps, AllowList.contains_congr hab]
  split
  · exact hf column v w hvw
  · exact .cons (.notice _) .nil

theorem rangeCalls_congr (h : r.Related (· == ·) s) :
    List.Forall₂ (· == ·) (rangeCalls r) (rangeCalls s) := by
  rw [rangeCalls, rangeCalls, ← h.order]
  refine List.rel_append (List.rel_append ?_ ?_) ?_
  · rw [List.forall₂_same]
    intro c hc
    obtain ⟨t, -, rfl⟩ := List.mem_map.mp hc
    simp
  · simpa using forall₂_toList h.limit
  · simpa using forall₂_toList h.offset

theorem readSteps_congr {request request' : Option ReadRequest} (hab : (a == b) = true)
    (h : Option.Rel (ReadRequest.Related (· == ·)) request request') :
    List.Forall₂ Step.Matches (readSteps request a) (readSteps request' b) := by
  refine List.rel_flatMap (forall₂_toList h) fun r s hrs => ?_
  refine List.rel_append ?_ (forall₂_call (rangeCalls_congr hrs))
  exact fieldsSteps_congr hab hrs.fields fun _ _ _ => conditionSteps_congr

theorem insertSteps_congr {r s : InsertRequest} (hab : (a == b) = true)
    (h : r.Related (· == ·) s) :
    List.Forall₂ Step.Matches (insertSteps (some r) a) (insertSteps (some s) b) := by
  simp only [insertSteps, Option.toList_some, List.flatMap_singleton]
  refine fieldsSteps_congr hab h.fields fun column v w hvw => .cons (.call ?_) .nil
  simpa using hvw

theorem updateSteps_congr {r s : UpdateRequest} (hab : (a == b) = true)
    (h : r.Related (· == ·) s) :
    List.Forall₂ Step.Matches (updateSteps (some r) a) (updateSteps (some s) b) := by
  simp only [updateSteps, Option.toList_some, List.flatMap_singleton]
  refine List.rel_append ?_ (readSteps_congr hab h.selection)
  refine fieldsSteps_congr hab h.fields fun column v w hvw => .cons (.call ?_) .nil
  simpa using hvw

/-- No log tells the two apart: it has equal calls after both, and the notices are the same. -/
structure AgreeOnLog (x y : Compilation (List Call) Empty Unit) : Prop where
  log : ∀ log log', (log == log') = true →
    ((x Target.log log).state == (y Target.log log').state) = true
  notices : ∀ log log', (x Target.log log).notices = (y Target.log log').notices

theorem agreeOnLog_perform {js ks : List Step} (h : List.Forall₂ Step.Matches js ks) :
    AgreeOnLog (perform js) (perform ks) := by
  constructor
  · intro log log' hlog
    rw [perform_log, perform_log, beq_iff_forall₂]
    refine List.rel_append (beq_iff_forall₂.mp hlog) (List.rel_filterMap ?_ h)
    rintro _ _ (hcd | n)
    · exact .some hcd
    · exact .none
  · intro log log'
    rw [perform_log, perform_log, Run.notices, Run.notices, ← List.forall₂_eq_eq_eq]
    refine List.rel_filterMap ?_ h
    rintro _ _ (hcd | n)
    · exact .none
    · exact .some rfl

end Compilation

end Criteria
