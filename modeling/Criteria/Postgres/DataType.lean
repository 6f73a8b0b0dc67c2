/-! Types of statement parameters. -/
namespace Criteria.Postgres

/-- What a type is made of. -/
inductive Form (τ : Type) where
  | simple
  | pseudo
  | enum
  | array (member : τ)
  | range (member : τ)
  | domain (member : τ)
deriving DecidableEq, Repr

/-- The built-in types. -/
inductive Builtin where
  | bool | bytea | char | name | int8 | int2 | int4 | text | oid | json | xml | float4 | float8
  | unknown | money | inet | bpchar | varchar | date | time | timestamp | timestamptz
  | interval | numeric | uuid | jsonb | record | anyarray | void | int4range | int2vector
  | oidvector | jsonArray | boolArray | byteaArray | nameArray | int2Array | int4Array
  | textArray | bpcharArray | varcharArray | int8Array | float4Array | float8Array
  | timestampArray | dateArray | timestamptzArray | numericArray | uuidArray | jsonbArray
deriving DecidableEq, Repr

namespace Builtin

def all : List Builtin :=
  [bool, bytea, char, name, int8, int2, int4, text, oid, json, xml, float4, float8, unknown,
    money, inet, bpchar, varchar, date, time, timestamp, timestamptz, interval, numeric, uuid,
    jsonb, record, anyarray, void, int4range, int2vector, oidvector, jsonArray, boolArray,
    byteaArray, nameArray, int2Array, int4Array, textArray, bpcharArray, varcharArray,
    int8Array, float4Array, float8Array, timestampArray, dateArray, timestamptzArray,
    numericArray, uuidArray, jsonbArray]

def typeName : Builtin → String
  | bool => "bool"
  | bytea => "bytea"
  | char => "char"
  | name => "name"
  | int8 => "int8"
  | int2 => "int2"
  | int4 => "int4"
  | text => "text"
  | oid => "oid"
  | json => "json"
  | xml => "xml"
  | float4 => "float4"
  | float8 => "float8"
  | unknown => "unknown"
  | money => "money"
  | inet => "inet"
  | bpchar => "bpchar"
  | varchar => "varchar"
  | date => "date"
  | time => "time"
  | timestamp => "timestamp"
  | timestamptz => "timestamptz"
  | interval => "interval"
  | numeric => "numeric"
  | uuid => "uuid"
  | jsonb => "jsonb"
  | record => "record"
  | anyarray => "anyarray"
  | void => "void"
  | int4range => "int4range"
  | int2vector => "int2vector"
  | oidvector => "oidvector"
  | jsonArray => "_json"
  | boolArray => "_bool"
  | byteaArray => "_bytea"
  | nameArray => "_name"
  | int2Array => "_int2"
  | int4Array => "_int4"
  | textArray => "_text"
  | bpcharArray => "_bpchar"
  | varcharArray => "_varchar"
  | int8Array => "_int8"
  | float4Array => "_float4"
  | float8Array => "_float8"
  | timestampArray => "_timestamp"
  | dateArray => "_date"
  | timestamptzArray => "_timestamptz"
  | numericArray => "_numeric"
  | uuidArray => "_uuid"
  | jsonbArray => "_jsonb"

/-- The number that stands for the type on the wire. -/
def typeOid : Builtin → Nat
  | bool => 16
  | bytea => 17
  | char => 18
  | name => 19
  | int8 => 20
  | int2 => 21
  | int4 => 23
  | text => 25
  | oid => 26
  | json => 114
  | xml => 142
  | float4 => 700
  | float8 => 701
  | unknown => 705
  | money => 790
  | inet => 869
  | bpchar => 1042
  | varchar => 1043
  | date => 1082
  | time => 1083
  | timestamp => 1114
  | timestamptz => 1184
  | interval => 1186
  | numeric => 1700
  | uuid => 2950
  | jsonb => 3802
  | record => 2249
  | anyarray => 2277
  | void => 2278
  | int4range => 3904
  | int2vector => 22
  | oidvector => 30
  | jsonArray => 199
  | boolArray => 1000
  | byteaArray => 1001
  | nameArray => 1003
  | int2Array => 1005
  | int4Array => 1007
  | textArray => 1009
  | bpcharArray => 1014
  | varcharArray => 1015
  | int8Array => 1016
  | float4Array => 1021
  | float8Array => 1022
  | timestampArray => 1115
  | dateArray => 1182
  | timestamptzArray => 1185
  | numericArray => 1231
  | uuidArray => 2951
  | jsonbArray => 3807

def form : Builtin → Form Builtin
  | record => .pseudo
  | anyarray => .pseudo
  | void => .pseudo
  | int4range => .range .int4
  | int2vector => .array .int2
  | oidvector => .array .oid
  | jsonArray => .array .json
  | boolArray => .array .bool
  | byteaArray => .array .bytea
  | nameArray => .array .name
  | int2Array => .array .int2
  | int4Array => .array .int4
  | textArray => .array .text
  | bpcharArray => .array .bpchar
  | varcharArray => .array .varchar
  | int8Array => .array .int8
  | float4Array => .array .float4
  | float8Array => .array .float8
  | timestampArray => .array .timestamp
  | dateArray => .array .date
  | timestamptzArray => .array .timestamptz
  | numericArray => .array .numeric
  | uuidArray => .array .uuid
  | jsonbArray => .array .jsonb
  | _ => .simple

def ofName? (name : String) : Option Builtin := all.find? (·.typeName == name)

end Builtin

/-- A built-in type or one made by a user, which is never equal to a built-in one. -/
inductive DataType where
  | builtin (b : Builtin)
  | custom (name schema : String) (oid : Nat) (form : Form DataType)

namespace DataType

def name : DataType → String
  | builtin b => b.typeName
  | custom name .. => name

def oid : DataType → Nat
  | builtin b => b.typeOid
  | custom _ _ oid _ => oid

/-- The members' type, of an array. -/
def member? : DataType → Option DataType
  | builtin b =>
    match b.form with
    | .array m => some (builtin m)
    | _ => none
  | custom _ _ _ (.array m) => some m
  | custom .. => none

/-- The name, with its schema unless that is one of the two usual ones. -/
def text : DataType → String
  | builtin b => b.typeName
  | custom name schema _ _ =>
    if schema = "public" ∨ schema = "pg_catalog" then name else schema ++ "." ++ name

end DataType

end Criteria.Postgres
