/-! What a request says about the order of its rows. -/
namespace Criteria

/-- A column to sort by. The direction is any text and is handed on as it is. -/
structure OrderTerm where
  column : String
  direction : Option String := none
deriving DecidableEq, Repr

inductive OrderClause where
  | column (name : String)
  | term (term : OrderTerm)
  | terms (terms : List OrderTerm)
deriving DecidableEq, Repr

/-- The terms of an order, the most significant first. A bare column has no direction. -/
def OrderClause.toTerms : OrderClause → List OrderTerm
  | column name => [⟨name, none⟩]
  | term t => [t]
  | terms ts => ts

end Criteria
