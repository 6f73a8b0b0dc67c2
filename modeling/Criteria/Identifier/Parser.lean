import Criteria.Defect
import Criteria.Identifier.Basic

/-! Reading identifiers from left to right. -/
namespace Criteria.Identifier

inductive Fault where
  | empty
  | nul
  | trailingDot
  | expectedDot (c : Char)
  | unclosedQuote
  | emptyQuoted
  | invalid (c : Char)
  | emptySegment
deriving DecidableEq, Repr

def Fault.text : Fault → String
  | empty => "Identifier cannot be empty"
  | nul => "Identifier cannot contain NUL character"
  | trailingDot => "Trailing '.' in identifier"
  | expectedDot c => "Expected '.' between identifier parts, got '" ++ c.toString ++ "'"
  | unclosedQuote => "Unclosed quoted identifier"
  | emptyQuoted => "Empty quoted identifier"
  | invalid c => "Invalid character in identifier: '" ++ c.toString ++ "'"
  | emptySegment => "Empty identifier segment"

def isStart (c : Char) : Bool := c = '_' || c.isAlpha

def isFollow (c : Char) : Bool := c = '_' || c = '$' || c.isAlphanum

/-- The name up to a dot or the end, all of whose characters must be valid, and what follows it. -/
def takePlain (valid : Char → Bool) : List Char → Except Fault (List Char × List Char)
  | [] => .ok ([], [])
  | c :: cs =>
    if c = '.' then .ok ([], c :: cs)
    else if valid c then
      match takePlain isFollow cs with
      | .ok (name, rest) => .ok (c :: name, rest)
      | .error e => .error e
    else .error (.invalid c)

/-- The name up to the closing quote, and what follows that. A quote within the name is doubled. -/
def takeQuoted : List Char → Option (List Char × List Char)
  | [] => none
  | '"' :: '"' :: cs => (takeQuoted cs).map fun (name, rest) => ('"' :: name, rest)
  | c :: cs =>
    if c = '"' then some ([], cs)
    else (takeQuoted cs).map fun (name, rest) => (c :: name, rest)

def takePart (cs : List Char) : Except Fault (Part × List Char) :=
  match cs with
  | '"' :: cs =>
    match takeQuoted cs with
    | none => .error .unclosedQuote
    | some ([], _) => .error .emptyQuoted
    | some (name, rest) => .ok (.quoted (String.ofList name), rest)
  | cs =>
    match takePlain isStart cs with
    | .error e => .error e
    | .ok ([], _) => .error .emptySegment
    | .ok (name, rest) => .ok (.plain (String.ofList name), rest)

theorem length_takePlain {valid : Char → Bool} {cs name rest : List Char}
    (h : takePlain valid cs = .ok (name, rest)) : name.length + rest.length = cs.length := by
  fun_induction takePlain valid cs generalizing name rest with
  | case1 => simp_all
  | case2 => cases h; simp
  | case3 valid c cs hc hv n r hr ih => cases h; simp [← ih hr]; omega
  | case4 => simp at h
  | case5 => simp at h

theorem length_takeQuoted {cs name rest : List Char} (h : takeQuoted cs = some (name, rest)) :
    rest.length < cs.length := by
  fun_induction takeQuoted cs generalizing name rest with
  | case1 => simp at h
  | case2 cs ih =>
    obtain ⟨⟨n, r⟩, hr, he⟩ := Option.map_eq_some_iff.1 h
    have := ih hr
    cases he
    simp only [List.length_cons]
    omega
  | case3 cs => simp_all
  | case4 c cs _ hc ih =>
    obtain ⟨⟨n, r⟩, hr, he⟩ := Option.map_eq_some_iff.1 h
    have := ih hr
    cases he
    simp only [List.length_cons]
    omega

theorem length_takePart {cs rest : List Char} {p : Part} (h : takePart cs = .ok (p, rest)) :
    rest.length < cs.length := by
  unfold takePart at h
  split at h
  · split at h
    · simp at h
    · simp at h
    · next hq =>
      cases h
      have := length_takeQuoted hq
      simp only [List.length_cons]
      omega
  · split at h
    · simp at h
    · simp at h
    · next name rest hne hp =>
      cases h
      have := length_takePlain hp
      have : name ≠ [] := fun he => by simp_all
      have := List.length_pos_iff.2 this
      omega

/-- The parts of a text, each but the last followed by a dot. -/
def takeParts (cs : List Char) : Except Fault (List Part) :=
  match _h : takePart cs with
  | .error e => .error e
  | .ok (p, []) => .ok [p]
  | .ok (p, c :: rest) =>
    if c ≠ '.' then .error (.expectedDot c)
    else if rest.isEmpty then .error .trailingDot
    else (takeParts rest).map (p :: ·)
termination_by cs.length
decreasing_by
  have := length_takePart _h
  simp only [List.length_cons] at this
  omega

/-- An empty text and a NUL anywhere are faults before all others. -/
def parse (s : String) : Except Fault Identifier :=
  if s.isEmpty then .error .empty
  else if s.toList.contains '\x00' then .error .nul
  else (takeParts s.toList).map Identifier.mk

/-- The identifier that a text is, if it is one. -/
def ofString (s : String) : Except Error Identifier :=
  (parse s).mapError fun fault => .invalid fault.text

end Criteria.Identifier
