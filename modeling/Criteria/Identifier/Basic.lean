/-! SQL identifiers: parts, plain or quoted, joined by dots. -/
namespace Criteria

/-- A part of an identifier. The name of a quoted part is free of its quotes. -/
inductive Identifier.Part where
  | plain (name : String)
  | quoted (name : String)
deriving DecidableEq, Repr

structure Identifier where
  parts : List Identifier.Part
deriving DecidableEq, Repr

namespace Identifier

/-- A quote within a quoted name is doubled. -/
def escape (c : Char) : List Char := if c = '"' then ['"', '"'] else [c]

def Part.text : Part → List Char
  | plain name => name.toList
  | quoted name => '"' :: name.toList.flatMap escape ++ ['"']

def text (i : Identifier) : String := String.ofList (['.'].intercalate (i.parts.map Part.text))

end Identifier

end Criteria
