import Criteria.Value.Basic

/-! The structure of values: induction, and the parts that lists and comparisons hold. -/
namespace Criteria.Value

/-- The items of a list come with their hypotheses. -/
@[elab_as_elim]
theorem induction {motive : Value → Prop} (null : motive .null) (bool : ∀ b, motive (.bool b))
    (int : ∀ n, motive (.int n)) (float : ∀ x, motive (.float x)) (text : ∀ s, motive (.text s))
    (timestamp : ∀ t, motive (.timestamp t)) (uuid : ∀ u, motive (.uuid u))
    (object : ∀ es, motive (.object es))
    (comparison : ∀ o v, motive v → motive (.comparison o v))
    (list : ∀ vs, (∀ v ∈ vs, motive v) → motive (.list vs)) (v : Value) : motive v := by
  refine Value.rec (motive_1 := motive) (motive_2 := fun vs => ∀ v ∈ vs, motive v)
    null bool int float text timestamp uuid object comparison list ?_ ?_ v
  · intro v hv
    cases hv
  · intro w ws hw hws v hv
    rcases List.mem_cons.mp hv with rfl | hv
    · exact hw
    · exact hws v hv

/-- A value holds itself, what the items of a list hold and what the operand of a comparison holds.
The data in an object is not held. -/
inductive Holds : Value → Value → Prop where
  | self (v : Value) : Holds v v
  | item {vs : List Value} {v w : Value} (hv : v ∈ vs) (h : Holds v w) : Holds (.list vs) w
  | operand {o : String} {v w : Value} (h : Holds v w) : Holds (.comparison o v) w

variable {P : Value → Prop} {v : Value} {vs : List Value} {o : String}

theorem forall_holds_list_iff (hP : P (.list vs)) :
    (∀ w, (list vs).Holds w → P w) ↔ ∀ v ∈ vs, ∀ w, v.Holds w → P w := by
  constructor
  · intro h v hv w hw
    exact h w (.item hv hw)
  · intro h w hw
    cases hw with
    | self => exact hP
    | item hv hw => exact h _ hv w hw

theorem forall_holds_comparison_iff (hP : P (.comparison o v)) :
    (∀ w, (comparison o v).Holds w → P w) ↔ ∀ w, v.Holds w → P w := by
  constructor
  · intro h w hw
    exact h w (.operand hw)
  · intro h w hw
    cases hw with
    | self => exact hP
    | operand hw => exact h w hw

/-- Any other value holds only itself. -/
theorem forall_holds_iff (hl : v.isList = false) (hc : v.isComparison = false) :
    (∀ w, v.Holds w → P w) ↔ P v := by
  constructor
  · intro h
    exact h v (.self v)
  · intro h w hw
    cases hw with
    | self => exact h
    | item => cases hl
    | operand => cases hc

/-- In an object no key is there twice, nor in anything within it. -/
def DistinctKeys : Value → Prop
  | .object es => (Json.object es).WellFormed
  | _ => True

def WellFormed (v : Value) : Prop := ∀ w, v.Holds w → w.DistinctKeys

theorem kind_eq_object_iff :
    v.kind = .object ↔ (∃ es, v = .object es) ∨ ∃ o w, v = .comparison o w := by
  cases v <;> simp [kind]

theorem kind_eq_list_iff : v.kind = .list ↔ v.isList = true := by
  cases v <;> simp [kind, isList, items?]

end Criteria.Value
