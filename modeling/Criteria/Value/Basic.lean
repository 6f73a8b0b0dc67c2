import Criteria.Json.Basic
import Criteria.Timestamp
import Criteria.Uuid

/-! The values that a request gives for its columns. -/
namespace Criteria

/-- A value for a column. An object is plain data; a comparison is an operator with its operand. -/
inductive Value where
  | null
  | bool (b : Bool)
  | int (n : Int64)
  | float (x : Binary64)
  | text (s : String)
  | timestamp (t : Timestamp)
  | uuid (u : Uuid)
  | object (entries : List (String × Json))
  | comparison (operator : String) (operand : Value)
  | list (items : List Value)

/-- What a list must agree on to be a membership test. -/
inductive Kind where
  | null | bool | number | text | timestamp | uuid | object | list
deriving DecidableEq, Repr

def Kind.name : Kind → String
  | null => "null"
  | bool => "bool"
  | number => "number"
  | text => "text"
  | timestamp => "timestamp"
  | uuid => "uuid"
  | object => "object"
  | list => "list"

namespace Value

/-- Integers and floats are both numbers, and a comparison is an object of a particular shape. -/
def kind : Value → Kind
  | null => .null
  | bool _ => .bool
  | int _ | float _ => .number
  | text _ => .text
  | timestamp _ => .timestamp
  | uuid _ => .uuid
  | object _ | comparison _ _ => .object
  | list _ => .list

def isNull : Value → Bool
  | null => true
  | _ => false

def isComparison : Value → Bool
  | comparison _ _ => true
  | _ => false

def items? : Value → Option (List Value)
  | list vs => some vs
  | _ => none

def isList (v : Value) : Bool := v.items?.isSome

mutual

/-- Equality within each form of value; floats compare as numbers and objects as JSON. -/
def equal : Value → Value → Bool
  | null, null => true
  | bool a, bool b => a == b
  | int m, int n => m == n
  | float x, float y => x == y
  | text s, text t => s == t
  | timestamp s, timestamp t => s == t
  | uuid u, uuid v => u == v
  | object es, object fs => Json.object es == Json.object fs
  | comparison o v, comparison p w => o == p && equal v w
  | list vs, list ws => equalItems vs ws
  | _, _ => false

def equalItems : List Value → List Value → Bool
  | [], [] => true
  | v :: vs, w :: ws => equal v w && equalItems vs ws
  | _, _ => false

end

instance : BEq Value := ⟨equal⟩

end Value

end Criteria
