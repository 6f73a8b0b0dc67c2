import Criteria.Json.Token

/-! Reading JSON text: a stack machine over tokens. -/
namespace Criteria.Json

/-- The deepest nesting of arrays and objects that is read. -/
def maxNesting : Nat := 127

/-- An array or object that is still open. -/
inductive Frame where
  | array (items : Array Json)
  | object (entries : Entries Json)
  | member (entries : Entries Json) (key : String)

/-- What may come next: a value, with or without the end of the array just opened; a key, with or
without the end of the object just opened; the colon after a key; a comma or an end; or nothing. -/
inductive Expected where
  | value | firstItem | key | firstKey | colon | separator
  | done (j : Json)

structure Machine where
  frames : List Frame
  expected : Expected

namespace Machine

/-- Puts a complete value into the innermost open frame. -/
def place (j : Json) : List Frame → Option Machine
  | [] => some ⟨[], .done j⟩
  | .array items :: frames => some ⟨.array (items.push j) :: frames, .separator⟩
  | .member entries key :: frames => some ⟨.object (entries.insert key j) :: frames, .separator⟩
  | .object _ :: _ => none

def enter (m : Machine) (frame : Frame) (next : Expected) : Option Machine :=
  if m.frames.length < maxNesting then some ⟨frame :: m.frames, next⟩ else none

/-- A token that starts a value. -/
def value (m : Machine) : Token → Option Machine
  | .null => place .null m.frames
  | .bool b => place (.bool b) m.frames
  | .number n => place (.number n) m.frames
  | .string s => place (.string s) m.frames
  | .openArray => m.enter (.array #[]) .firstItem
  | .openObject => m.enter (.object []) .firstKey
  | _ => none

def close (m : Machine) : Token → Option Machine
  | .closeArray =>
    match m.frames with
    | .array items :: frames => place (.array items.toList) frames
    | _ => none
  | .closeObject =>
    match m.frames with
    | .object entries :: frames => place (.object entries) frames
    | _ => none
  | _ => none

def key (m : Machine) : Token → Option Machine
  | .string key =>
    match m.frames with
    | .object entries :: frames => some ⟨.member entries key :: frames, .colon⟩
    | _ => none
  | _ => none

def step (m : Machine) (t : Token) : Option Machine :=
  match m.expected with
  | .value => m.value t
  | .firstItem => m.close t <|> m.value t
  | .key => m.key t
  | .firstKey => m.close t <|> m.key t
  | .colon =>
    match t with
    | .colon => some { m with expected := .value }
    | _ => none
  | .separator =>
    match t, m.frames with
    | .comma, .array _ :: _ => some { m with expected := .value }
    | .comma, .object _ :: _ => some { m with expected := .key }
    | t, _ => m.close t
  | .done _ => none

end Machine

/-- The value that a whole text stands for. A repeated key keeps its first position and takes its
last value. -/
def ofText? (text : String) : Option Json := do
  let tokens ← Token.ofText? text
  let m ← tokens.foldlM Machine.step ⟨[], .value⟩
  match m.expected with
  | .done j => some j
  | _ => none

end Criteria.Json
