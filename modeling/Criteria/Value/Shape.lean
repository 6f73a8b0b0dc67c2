import Criteria.Value.Basic

/-! What a list of values means as a condition. -/
namespace Criteria

/-- One membership test over the whole list, or one condition for each item. -/
inductive Shape where
  | membership | conjunction
deriving DecidableEq, Repr

def Shape.name : Shape → String
  | membership => "in"
  | conjunction => "and"

/-- A list is a membership test if its items are all of one kind and the first is neither a
comparison nor a list. An empty list is no condition. A comparison counts as an object here, so
objects may be followed by comparisons, but not the other way round. -/
def Shape.ofList? : List Value → Option Shape
  | [] => none
  | v :: vs =>
    if vs.all (·.kind == v.kind) && !v.isComparison && !v.isList then some .membership
    else some .conjunction

theorem Shape.ofList?_eq_none_iff {vs : List Value} : ofList? vs = none ↔ vs = [] := by
  cases vs with
  | nil => simp [ofList?]
  | cons v vs =>
    rw [ofList?]
    split <;> simp

end Criteria
