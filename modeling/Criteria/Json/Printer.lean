import Criteria.Json.Basic
import Criteria.Numeric.Decimal
import Criteria.Numeric.Hexadecimal

/-! Compact JSON text: no blanks, the fewest escapes, the shortest floats. -/
namespace Criteria.Json

/-- Only the quote, the backslash and the control characters below the blank are escaped. -/
def escape (c : Char) : List Char :=
  match c with
  | '"' => ['\\', '"']
  | '\\' => ['\\', '\\']
  | '\x08' => ['\\', 'b']
  | '\x0c' => ['\\', 'f']
  | '\n' => ['\\', 'n']
  | '\r' => ['\\', 'r']
  | '\t' => ['\\', 't']
  | c =>
    if c.toNat < 0x20 then ['\\', 'u', '0', '0', hexDigit (c.toNat / 16), hexDigit c.toNat]
    else [c]

def quote (s : String) : String :=
  String.ofList ('"' :: s.toList.flatMap escape ++ ['"'])

/-- Floats are positional from `0.00001` up to, but not including, `1e+16`. -/
def floatLayout : Decimal.Layout := ⟨-5, 15⟩

def Number.text : Number → String
  | .int n _ => toString n
  | .float x _ => x.text floatLayout

/-- Items between brackets, separated by commas. -/
def arrayText (items : List String) : String := "[" ++ ",".intercalate items ++ "]"

/-- Members between braces, each a quoted key and the text of its value. -/
def objectText (members : List (String × String)) : String :=
  "\x7b" ++ ",".intercalate (members.map fun (k, t) => quote k ++ ":" ++ t) ++ "\x7d"

mutual

def text : Json → String
  | .null => "null"
  | .bool true => "true"
  | .bool false => "false"
  | .number n => n.text
  | .string s => quote s
  | .array xs => arrayText (texts xs)
  | .object es => objectText (memberTexts es)

def texts : List Json → List String
  | [] => []
  | x :: xs => text x :: texts xs

def memberTexts : List (String × Json) → List (String × String)
  | [] => []
  | (k, x) :: es => (k, text x) :: memberTexts es

end

@[simp] theorem texts_eq_map (xs : List Json) : texts xs = xs.map text := by
  induction xs with
  | nil => rfl
  | cons x xs ih => simp [texts, ih]

@[simp] theorem memberTexts_eq_map (es : List (String × Json)) :
    memberTexts es = es.map fun e => (e.1, text e.2) := by
  induction es with
  | nil => rfl
  | cons e es ih => simp [memberTexts, ih]

end Criteria.Json
