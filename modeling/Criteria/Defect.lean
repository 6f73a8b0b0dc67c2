/-! Malformed places in a document, and the errors of the library. -/
namespace Criteria

/-- A place in a document: the whole, an entry of the outermost object, or a part of a place. -/
inductive Path where
  | root
  | key (k : String)
  | member (p : Path) (k : String)
  | item (p : Path) (i : Nat)
deriving DecidableEq, Repr

namespace Path

def text : Path → String
  | root => "<root>"
  | key k => k
  | member p k => p.text ++ "." ++ k
  | item p i => p.text ++ "[" ++ toString i ++ "]"

/-- The entry `k` of the object at `base`; the outermost object has no name of its own. -/
def under (base : Option Path) (k : String) : Path :=
  match base with
  | none => key k
  | some p => member p k

end Path

inductive Reason where
  | notObject
  | tooDeep
  | operatorNotText
  | orderNotUnderstood
  | termWithoutColumn
  | columnNotText
  | directionNotText
deriving DecidableEq, Repr

def Reason.text : Reason → String
  | notObject => "options must be an object"
  | tooDeep => "value nesting exceeds max_depth"
  | operatorNotText => "operator must be a string"
  | orderNotUnderstood => "expected a column name, an order spec or a list of order specs"
  | termWithoutColumn => "expected an object with a 'column' key"
  | columnNotText => "column must be a string"
  | directionNotText => "direction must be a string"

structure Defect where
  path : Path
  reason : Reason
deriving DecidableEq, Repr

/-- A malformed document, or something that a check refuses. -/
inductive Error where
  | malformed (d : Defect)
  | invalid (text : String)
deriving DecidableEq, Repr

def Error.message : Error → String
  | malformed d => "Malformed options at '" ++ d.path.text ++ "': " ++ d.reason.text
  | invalid text => "Validation error: " ++ text

def Error.isMalformed : Error → Bool
  | malformed _ => true
  | invalid _ => false

def Error.isInvalid : Error → Bool
  | malformed _ => false
  | invalid _ => true

end Criteria
