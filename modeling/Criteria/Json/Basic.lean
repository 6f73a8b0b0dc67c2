import Criteria.Entries
import Criteria.Numeric.Binary64

/-! JSON values. -/
namespace Criteria

/-- A JSON number: an integer that fits 64 bits, with or without a sign, or a finite float. -/
inductive Json.Number where
  | int (n : Int) (bounded : -9223372036854775808 ≤ n ∧ n < 18446744073709551616)
  | float (x : Binary64) (finite : x.isFinite = true)
deriving DecidableEq

/-- A JSON value. The entries of an object are kept in the order of the document. -/
inductive Json where
  | null
  | bool (b : Bool)
  | number (n : Json.Number)
  | string (s : String)
  | array (items : List Json)
  | object (entries : List (String × Json))

namespace Json

/-- Integers and floats are never equal, and floats compare as numbers. -/
def Number.equal : Number → Number → Bool
  | .int m _, .int n _ => m == n
  | .float x _, .float y _ => x == y
  | _, _ => false

instance : BEq Number := ⟨Number.equal⟩

mutual

/-- Arrays are equal item by item, objects entry by entry whatever their order. -/
def equal : Json → Json → Bool
  | .null, .null => true
  | .bool a, .bool b => a == b
  | .number m, .number n => m == n
  | .string s, .string t => s == t
  | .array xs, .array ys => equalItems xs ys
  | .object es, .object fs => es.length == fs.length && subsumed es fs
  | _, _ => false

def equalItems : List Json → List Json → Bool
  | [], [] => true
  | x :: xs, y :: ys => equal x y && equalItems xs ys
  | _, _ => false

/-- Every entry has an equal one under its key. -/
def subsumed : List (String × Json) → List (String × Json) → Bool
  | [], _ => true
  | (k, x) :: es, fs =>
    (match Entries.get? k fs with
      | some y => equal x y
      | none => false) && subsumed es fs

end

instance : BEq Json := ⟨equal⟩

mutual

/-- No object within the value repeats a key. -/
def WellFormed : Json → Prop
  | .array xs => WellFormedItems xs
  | .object es => (Entries.keys es).Nodup ∧ WellFormedEntries es
  | _ => True

def WellFormedItems : List Json → Prop
  | [] => True
  | x :: xs => WellFormed x ∧ WellFormedItems xs

def WellFormedEntries : List (String × Json) → Prop
  | [] => True
  | (_, x) :: es => WellFormed x ∧ WellFormedEntries es

end

/-- The operator and the operand of an object with exactly the entries `operator` and `value`, in
either order. -/
def condition? : Json → Option (Json × Json)
  | .object [(k, x), (l, y)] =>
    if k = "operator" ∧ l = "value" then some (x, y)
    else if k = "value" ∧ l = "operator" then some (y, x)
    else none
  | _ => none

def isCondition (j : Json) : Bool := j.condition?.isSome

end Json

end Criteria
