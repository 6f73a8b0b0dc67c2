import Criteria.Json.Number
import Criteria.Numeric.Hexadecimal

/-! The lexical grammar of JSON, as a machine that reads a character at a time. -/
namespace Criteria.Json

inductive Token where
  | openArray | closeArray | openObject | closeObject | comma | colon
  | null
  | bool (b : Bool)
  | number (n : Number)
  | string (s : String)

namespace Token

/-- What the characters read last belong to. Characters seen are kept last first. -/
inductive Mode where
  | between
  | word (seen : List Char)
  | numeral (seen : List Char)
  | quoted (seen : List Char)
  /-- After a backslash, itself perhaps after the escape of a leading surrogate. -/
  | escape (seen : List Char) (lead : Option Nat)
  /-- Within the four digits of a code unit. -/
  | unit (seen : List Char) (lead : Option Nat) (code : Nat) (digits : Nat)
  /-- After the escape of a leading surrogate. -/
  | surrogate (seen : List Char) (lead : Nat)

structure Lexer where
  tokens : Array Token
  mode : Mode

namespace Lexer

def emit (l : Lexer) (t : Token) : Lexer := ⟨l.tokens.push t, .between⟩

def literal? : List Char → Option Token
  | ['n', 'u', 'l', 'l'] => some .null
  | ['t', 'r', 'u', 'e'] => some (.bool true)
  | ['f', 'a', 'l', 's', 'e'] => some (.bool false)
  | _ => none

/-- Ends a word or a number that is being read. Text may end only here. -/
def finish (l : Lexer) : Option Lexer :=
  match l.mode with
  | .between => some l
  | .word seen => (literal? seen.reverse).map l.emit
  | .numeral seen => do
    let n ← Literal.ofText? seen.reverse
    (n.number?).map fun n => l.emit (.number n)
  | _ => none

def inNumeral (c : Char) : Bool := c.isDigit || ['+', '-', '.', 'e', 'E'].contains c

/-- Starts a token, or skips one of the four blanks. -/
def start (l : Lexer) (c : Char) : Option Lexer :=
  match c with
  | ' ' | '\t' | '\n' | '\r' => some l
  | '[' => some (l.emit .openArray)
  | ']' => some (l.emit .closeArray)
  | '\x7b' => some (l.emit .openObject)
  | '\x7d' => some (l.emit .closeObject)
  | ',' => some (l.emit .comma)
  | ':' => some (l.emit .colon)
  | '"' => some { l with mode := .quoted [] }
  | c =>
    if c.isDigit || c = '-' then some { l with mode := .numeral [c] }
    else if c.isLower then some { l with mode := .word [c] }
    else none

def escaped? : Char → Option Char
  | '"' => some '"'
  | '\\' => some '\\'
  | '/' => some '/'
  | 'b' => some '\x08'
  | 'f' => some '\x0c'
  | 'n' => some '\n'
  | 'r' => some '\r'
  | 't' => some '\t'
  | _ => none

/-- A complete code unit: surrogates must come as a leading one and a trailing one. -/
def codeUnit (seen : List Char) (lead : Option Nat) (code : Nat) : Option Mode :=
  match lead with
  | none =>
    if 0xd800 ≤ code ∧ code < 0xdc00 then some (.surrogate seen code)
    else if 0xdc00 ≤ code ∧ code < 0xe000 then none
    else some (.quoted (Char.ofNat code :: seen))
  | some lead =>
    if 0xdc00 ≤ code ∧ code < 0xe000 then
      some (.quoted (Char.ofNat (0x10000 + (lead - 0xd800) * 0x400 + (code - 0xdc00)) :: seen))
    else none

def step (l : Lexer) (c : Char) : Option Lexer :=
  match l.mode with
  | .between => l.start c
  | .word seen =>
    if c.isLower then some { l with mode := .word (c :: seen) }
    else do (← l.finish).start c
  | .numeral seen =>
    if inNumeral c then some { l with mode := .numeral (c :: seen) }
    else do (← l.finish).start c
  | .quoted seen =>
    if c = '"' then some (l.emit (.string (String.ofList seen.reverse)))
    else if c = '\\' then some { l with mode := .escape seen none }
    else if c.toNat < 0x20 then none
    else some { l with mode := .quoted (c :: seen) }
  | .escape seen lead =>
    if c = 'u' then some { l with mode := .unit seen lead 0 0 }
    else if lead.isSome then none
    else (escaped? c).map fun c => { l with mode := .quoted (c :: seen) }
  | .unit seen lead code digits => do
    let code := code * 16 + (← hexValue? c)
    if digits < 3 then some { l with mode := .unit seen lead code (digits + 1) }
    else (codeUnit seen lead code).map fun mode => { l with mode }
  | .surrogate seen lead =>
    if c = '\\' then some { l with mode := .escape seen (some lead) } else none

end Lexer

/-- The tokens of a text, if it has no lexical fault. -/
def ofText? (text : String) : Option (List Token) := do
  let l ← text.toList.foldlM Lexer.step ⟨#[], .between⟩
  return (← l.finish).tokens.toList

end Token

end Criteria.Json
