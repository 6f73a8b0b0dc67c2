import Criteria.OrderClause
import Criteria.Value.Printer

/-! The calls that build a query. -/
namespace Criteria

inductive Call where
  | whereEq (column : String) (value : Value)
  | whereOp (column operator : String) (operand : Value)
  | whereIn (column : String) (values : List Value)
  | orderBy (term : OrderTerm)
  | limit (value : Value)
  | offset (value : Value)
  | value (column : String) (value : Value)
  | set (column : String) (value : Value)

namespace Call

def name : Call → String
  | whereEq .. => "where_eq"
  | whereOp .. => "where_op"
  | whereIn .. => "where_in"
  | orderBy _ => "order_by"
  | limit _ => "limit"
  | offset _ => "offset"
  | value .. => "value"
  | set .. => "set"

def isWhere : Call → Bool
  | whereEq .. | whereOp .. | whereIn .. => true
  | _ => false

def column? : Call → Option String
  | whereEq c _ | whereOp c _ _ | whereIn c _ | value c _ | set c _ => some c
  | orderBy t => some t.column
  | limit _ | offset _ => none

/-- Equality of calls, their values compared as values. -/
def equal : Call → Call → Bool
  | whereEq c v, whereEq d w => c == d && v == w
  | whereOp c o v, whereOp d p w => c == d && o == p && v == w
  | whereIn c vs, whereIn d ws => c == d && vs == ws
  | orderBy s, orderBy t => s == t
  | limit v, limit w => v == w
  | offset v, offset w => v == w
  | value c v, value d w => c == d && v == w
  | set c v, set d w => c == d && v == w
  | _, _ => false

instance : BEq Call := ⟨equal⟩

/-- The members of a call besides its name, as texts. -/
def members : Call → List (String × String)
  | whereEq c v | value c v | set c v => [("column", Json.quote c), ("value", v.render)]
  | whereOp c o v =>
    [("column", Json.quote c), ("operator", Json.quote o), ("value", v.render)]
  | whereIn c vs => [("column", Json.quote c), ("values", Json.arrayText (vs.map Value.render))]
  | orderBy t =>
    [("column", Json.quote t.column), ("direction", (t.direction.map Json.quote).getD "null")]
  | limit v | offset v => [("value", v.render)]

/-- The compact JSON text of a call, its name first. -/
def render (c : Call) : String := Json.objectText (("call", Json.quote c.name) :: c.members)

end Call

/-- The compact JSON text of a list of calls. -/
def renderCalls (calls : List Call) : String := Json.arrayText (calls.map Call.render)

end Criteria
