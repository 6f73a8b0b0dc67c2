import Criteria.Json.Printer
import Criteria.Value.Basic

/-! Values as JSON: as a tree, and directly as text. -/
namespace Criteria

def Json.Number.ofInt64 (n : Int64) : Json.Number :=
  .int n.toInt <| by
    have := n.toInt_lt
    have := n.le_toInt
    omega

namespace Value

mutual

/-- A float that is not finite has no JSON form and becomes null. -/
def toJson : Value → Json
  | null => .null
  | bool b => .bool b
  | int n => .number (.ofInt64 n)
  | float x => if h : x.isFinite = true then .number (.float x h) else .null
  | text s => .string s
  | timestamp t => .string t.text
  | uuid u => .string u.text
  | object es => .object es
  | comparison o v => .object [("operator", .string o), ("value", toJson v)]
  | list vs => .array (toJsons vs)

def toJsons : List Value → List Json
  | [] => []
  | v :: vs => toJson v :: toJsons vs

end

@[simp] theorem toJsons_eq_map (vs : List Value) : toJsons vs = vs.map toJson := by
  induction vs with
  | nil => rfl
  | cons v vs ih => simp [toJsons, ih]

mutual

/-- The compact JSON text, written without building the tree. -/
def render : Value → String
  | null => "null"
  | bool b => if b then "true" else "false"
  | int n => toString n.toInt
  | float x => if x.isFinite then x.text Json.floatLayout else "null"
  | text s => Json.quote s
  | timestamp t => Json.quote t.text
  | uuid u => Json.quote u.text
  | object es => (Json.object es).text
  | comparison o v => Json.objectText [("operator", Json.quote o), ("value", render v)]
  | list vs => Json.arrayText (renders vs)

def renders : List Value → List String
  | [] => []
  | v :: vs => render v :: renders vs

end

end Value

end Criteria
