import Criteria.Reading.Basic
import Criteria.Value.Basic

/-! Reading the value of a field. -/
namespace Criteria

namespace Value

/-- An integer beyond the signed range becomes the nearest float. -/
def ofNumber : Json.Number → Value
  | .int n _ => if n < 9223372036854775808 then .int (Int64.ofInt n) else .float (.ofInt n)
  | .float x _ => .float x

/-- A condition with a textual operator is a comparison if its operand can be kept. With any other
operator it stays a plain object. -/
def readCondition (policy : Policy) (path : Path) (operator : Json)
    (operand : Unit → Reading (Option Value)) (whole : List (String × Json)) :
    Reading (Option Value) :=
  match operator with
  | .string o => return (← operand ()).map (.comparison o)
  | _ => do
    policy.reject (path.member "operator") .operatorNotText
    return some (.object whole)

mutual

/-- The value that a document gives for a field, or none if some part of it lies too deep. Arrays
and conditions nest; plain objects are kept as they are, whatever they hold. -/
def read (policy : Policy) (path : Path) (depth : Nat) (j : Json) : Reading (Option Value) :=
  if policy.allows depth then
    match j with
    | .null => return some .null
    | .bool b => return some (.bool b)
    | .number n => return some (ofNumber n)
    | .string s => return some (.text s)
    | .array js => return (← readItems policy path depth 0 js).map .list
    | .object [(k, x), (l, y)] =>
      if k = "operator" ∧ l = "value" then
        readCondition policy path x (fun _ => read policy (path.member "value") (depth + 1) y)
          [(k, x), (l, y)]
      else if k = "value" ∧ l = "operator" then
        readCondition policy path y (fun _ => read policy (path.member "value") (depth + 1) x)
          [(k, x), (l, y)]
      else return some (.object [(k, x), (l, y)])
    | .object es => return some (.object es)
  else do
    policy.reject path .tooDeep
    return none

/-- One item that cannot be kept drops all of them, and those after it are not looked at. -/
def readItems (policy : Policy) (path : Path) (depth i : Nat) :
    List Json → Reading (Option (List Value))
  | [] => return some []
  | j :: js => do
    match ← read policy (path.item i) (depth + 1) j with
    | none => return none
    | some v => return (← readItems policy path depth (i + 1) js).map (v :: ·)

end

theorem read_of_not_allows {policy : Policy} {path : Path} {depth : Nat} {j : Json}
    (h : policy.allows depth = false) :
    read policy path depth j = policy.reject path .tooDeep >>= fun _ => pure none := by
  rw [read.eq_def]
  simp [h]

theorem read_array {policy : Policy} {path : Path} {depth : Nat} {js : List Json}
    (h : policy.allows depth = true) :
    read policy path depth (.array js) =
      readItems policy path depth 0 js >>= fun vs => pure (vs.map .list) := by
  rw [read, if_pos h]

/-- An object is read as the condition that it is, if it is one. -/
theorem read_object {policy : Policy} {path : Path} {depth : Nat} {es : List (String × Json)}
    (h : policy.allows depth = true) :
    read policy path depth (.object es) =
      match (Json.object es).condition? with
      | some (operator, operand) =>
        readCondition policy path operator
          (fun _ => read policy (path.member "value") (depth + 1) operand) es
      | none => pure (some (.object es)) := by
  match es with
  | [] | [_] | _ :: _ :: _ :: _ => simp [read, h, Json.condition?]
  | [(k, x), (l, y)] =>
    rw [read, if_pos h, Json.condition?]
    split
    · rfl
    · split <;> rfl

/-- Reading without a limit of depth, which keeps every document. -/
def reading (j : Json) : Reading (Option Value) := read .unlimited .root 0 j

def ofJson (j : Json) : Value :=
  match (reading j).result with
  | .ok (some v) => v
  | _ => .null

end Value

end Criteria
