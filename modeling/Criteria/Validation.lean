import Criteria.AllowList
import Criteria.Call
import Criteria.Request

/-! Checking requests before they are compiled. -/
namespace Criteria

namespace Validation

/-- What a compilation would skip, or hand on although it can hardly be meant. -/
inductive Code where
  | unknownColumn
  | emptyList
  | unknownOrderColumn
  | negativeLimit
  | negativeOffset
  | nonIntegerLimit
  | nonIntegerOffset
deriving DecidableEq, Repr

def Code.name : Code → String
  | unknownColumn => "unknown_column"
  | emptyList => "empty_list"
  | unknownOrderColumn => "unknown_order_column"
  | negativeLimit => "negative_limit"
  | negativeOffset => "negative_offset"
  | nonIntegerLimit => "non_integer_limit"
  | nonIntegerOffset => "non_integer_offset"

def Code.all : List Code :=
  [unknownColumn, emptyList, unknownOrderColumn, negativeLimit, negativeOffset, nonIntegerLimit,
    nonIntegerOffset]

structure Finding where
  field : String
  code : Code
  message : String
deriving DecidableEq, Repr

def Finding.render (f : Finding) : String :=
  Json.objectText
    [("field", Json.quote f.field), ("code", Json.quote f.code.name),
      ("message", Json.quote f.message)]

structure Report where
  items : List Finding := []
deriving DecidableEq, Repr

namespace Report

variable (r s : Report)

def size : Nat := r.items.length

def isEmpty : Bool := r.items.isEmpty

def push (f : Finding) : Report := ⟨r.items ++ [f]⟩

def append : Report := ⟨r.items ++ s.items⟩

instance : Append Report := ⟨append⟩

def has (code : Code) : Bool := r.items.any (·.code = code)

/-- Nothing, or all findings in one error. -/
def toExcept : Except Error Unit :=
  if r.isEmpty then .ok ()
  else .error (.invalid ("; ".intercalate (r.items.map fun f => f.field ++ ": " ++ f.message)))

def render : String := Json.objectText [("items", Json.arrayText (r.items.map Finding.render))]

end Report

section

variable (base : Option Path) (allowed : AllowList)

/-- The field of the given name in the request at `base`. -/
def fieldName (key : String) : String := (Path.under base key).text

def unknownColumns (m : ColumnMap) : List Finding :=
  (m.columns.filter fun c => !allowed.contains c).map fun c =>
    ⟨fieldName base c, .unknownColumn, "column is not allowed"⟩

def emptyLists (m : ColumnMap) : List Finding :=
  (m.entries.filter fun e => e.2.items?.any List.isEmpty).map fun e =>
    ⟨fieldName base e.1, .emptyList, "empty list produces no condition"⟩

def unknownTerms (order : OrderClause) : List Finding :=
  (order.toTerms.filter fun t => !allowed.contains t.column).map fun t =>
    ⟨fieldName base "orderBy", .unknownOrderColumn, "unknown order column '" ++ t.column ++ "'"⟩

/-- A limit or an offset should be an integer, or a float without a fraction, and not below zero. -/
def bound (key : String) (nonInteger negative : Code) (v : Value) : List Finding :=
  let other : List Finding :=
    [⟨fieldName base key, nonInteger, "expected an integer, got " ++ v.kind.name⟩]
  let below : List Finding := [⟨fieldName base key, negative, "must not be negative"⟩]
  match v with
  | .int n => if n < 0 then below else []
  | .float x => if x.isIntegral then if x.belowZero then below else [] else other
  | _ => other

/-- The report on the request that stands at `base` within another. -/
def readAt (r : ReadRequest) : Report :=
  ⟨unknownColumns base allowed r.fields ++ emptyLists base r.fields ++
    (r.order.map (unknownTerms base allowed)).getD [] ++
    (r.limit.map (bound base "limit" .nonIntegerLimit .negativeLimit)).getD [] ++
    (r.offset.map (bound base "offset" .nonIntegerOffset .negativeOffset)).getD []⟩

def read (r : ReadRequest) : Report := readAt none allowed r

def insert (r : InsertRequest) : Report := ⟨unknownColumns none allowed r.fields⟩

def update (r : UpdateRequest) : Report :=
  ⟨unknownColumns none allowed r.fields⟩ ++
    (r.selection.map (readAt (some (.key "queryOptions")) allowed)).getD {}

end

end Validation

end Criteria
