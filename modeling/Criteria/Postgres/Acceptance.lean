import Criteria.Postgres.DataType

/-! Which types take which kinds of values. -/
namespace Criteria.Postgres.DataType

variable (t : DataType)

def isBuiltin (among : List Builtin) : Bool :=
  match t with
  | builtin b => b ∈ among
  | custom .. => false

def takesBool : Bool := t.isBuiltin [.bool]

def takesInt : Bool := t.isBuiltin [.int2, .int4, .int8, .float8]

def takesFloat : Bool := t.isBuiltin [.float4, .float8]

/-- The text types, and the types of some extensions, which are known by their names alone. -/
def takesText : Bool :=
  t.isBuiltin [.varchar, .text, .bpchar, .name, .unknown] ||
    ["citext", "ltree", "lquery", "ltxtquery"].contains t.name

def takesTimestamp : Bool := t.isBuiltin [.timestamptz, .timestamp]

def takesUuid : Bool := t.isBuiltin [.uuid]

def takesObject : Bool := t.isBuiltin [.json, .jsonb]

/-- Whether values of some scalar kind bind to the type. -/
def takesScalar : Bool :=
  t.takesBool || t.takesInt || t.takesFloat || t.takesText || t.takesTimestamp || t.takesUuid ||
    t.takesObject

/-- Whether values of some kind bind to the type, or to the members of the members of an array. -/
def accepted : DataType → Bool
  | builtin b =>
    match b.form with
    | .array m => (builtin m).takesScalar
    | _ => (builtin b).takesScalar
  | custom _ _ _ (.array m) => accepted m
  | t => t.takesScalar

end Criteria.Postgres.DataType
