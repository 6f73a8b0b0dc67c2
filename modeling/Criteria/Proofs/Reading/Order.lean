import Criteria.Entries
import Criteria.Json.Basic
import Criteria.OrderClause

/-! The terms that an order writes. -/
namespace Criteria

namespace Json

def nonNull? : Json → Option Json
  | .null => none
  | j => some j

/-- The parts of an order, each of which should be a term. -/
def orderParts : Json → List Json
  | .null => []
  | .array js => js
  | j => [j]

end Json

/-- A part of an order, and the term that it writes. -/
inductive OrderTerm.Written : Json → OrderTerm → Prop where
  | name (c : String) : Written (.string c) ⟨c, none⟩
  | plain {es : Entries Json} {c : String} (column : es.get? "column" = some (.string c))
      (direction : (es.get? "direction").bind Json.nonNull? = none) :
      Written (.object es) ⟨c, none⟩
  | directed {es : Entries Json} {c d : String} (column : es.get? "column" = some (.string c))
      (direction : es.get? "direction" = some (.string d)) : Written (.object es) ⟨c, some d⟩

end Criteria
