import Criteria.Postgres.Acceptance
import Criteria.Postgres.Wire
import Criteria.Value.Printer

/-! Values as statement parameters in the binary format. -/
namespace Criteria.Postgres

inductive BindError where
  /-- The type is none that values of any kind bind to. -/
  | notAccepted (type : DataType)
  | outOfRange
  | comparison (operator : String)
  | mismatch (kind : Kind) (type : DataType)

def BindError.message? : BindError → Option String
  | notAccepted _ | outOfRange => none
  | comparison o => some ("comparator '" ++ o ++ "' cannot be bound as a parameter")
  | mismatch kind type =>
    some ("cannot bind a " ++ kind.name ++ " filter value to a " ++ type.text ++ " parameter")

namespace DataType

variable (t : DataType)

/-- Texts of three types are preceded by the version of their format. -/
def textVersion : List UInt8 :=
  if ["ltree", "lquery", "ltxtquery"].contains t.name then [1] else []

/-- Indices of the members count from one, save for two old types. -/
def lowerBound : Int := if t.isBuiltin [.int2vector, .oidvector] then 0 else 1

end DataType

/-- The bytes of a parameter, or none for null. -/
abbrev Encoding := Option (List UInt8)

/-- An integer that must fit the bytes it is given. -/
def encodeInt (width : Nat) (n : Int) : Except BindError Encoding :=
  let half : Int := (1 <<< (8 * width - 1) : Nat)
  if -half ≤ n ∧ n < half then .ok (some (Wire.intBytes width n))
  else .error .outOfRange

def encodeBinary64 (x : Binary64) : List UInt8 := Wire.natBytes 8 x.bits.toNat

def encodeBinary32 (x : Binary32) : List UInt8 := Wire.natBytes 4 x.bits.toNat

def utf8 (s : String) : List UInt8 := s.toList.flatMap String.utf8EncodeChar

/-- Microseconds since the year 2000. What is less than a microsecond is cut off towards that
moment. -/
def microseconds (t : Timestamp) : Int :=
  ((t.seconds - 946684800) * 1000000000 + t.nanos).tdiv 1000

/-- A member of an array after its length, which is -1 for null. -/
def memberBytes : Encoding → List UInt8
  | some bytes => Wire.intBytes 4 bytes.length ++ bytes
  | none => Wire.intBytes 4 (-1)

/-- An array of one dimension: the number of dimensions, whether there are nulls, the type of the
members, their number, the first index, and the members. -/
def arrayBytes (array member : DataType) (members : List Encoding) : List UInt8 :=
  Wire.intBytes 4 1 ++ Wire.intBytes 4 (if members.contains none then 1 else 0) ++
    Wire.natBytes 4 member.oid ++ Wire.intBytes 4 members.length ++
    Wire.intBytes 4 array.lowerBound ++ members.flatMap memberBytes

mutual

/-- The encoding of a value for a type. Null suits every type, and a list suits an array if its
items suit the members. -/
def encode (t : DataType) : Value → Except BindError Encoding
  | .null => .ok none
  | .bool b =>
    if t.takesBool then .ok (some [if b then 1 else 0]) else .error (.mismatch .bool t)
  | .int n =>
    match t with
    | .builtin .int2 => encodeInt 2 n.toInt
    | .builtin .int4 => encodeInt 4 n.toInt
    | .builtin .int8 => encodeInt 8 n.toInt
    | .builtin .float8 => .ok (some (encodeBinary64 (.ofInt n.toInt)))
    | t => .error (.mismatch .number t)
  | .float x =>
    match t with
    | .builtin .float4 => .ok (some (encodeBinary32 x.toBinary32))
    | .builtin .float8 => .ok (some (encodeBinary64 x))
    | t => .error (.mismatch .number t)
  | .text s =>
    if t.takesText then .ok (some (t.textVersion ++ utf8 s)) else .error (.mismatch .text t)
  | .timestamp x =>
    if t.takesTimestamp then .ok (some (Wire.intBytes 8 (microseconds x)))
    else .error (.mismatch .timestamp t)
  | .uuid u =>
    if t.takesUuid then .ok (some (Wire.natBytes 16 u.bits.toNat)) else .error (.mismatch .uuid t)
  | .object es =>
    match t with
    | .builtin .json => .ok (some (utf8 (Json.object es).text))
    | .builtin .jsonb => .ok (some (1 :: utf8 (Json.object es).text))
    | t => .error (.mismatch .object t)
  | .comparison o _ => .error (.comparison o)
  | .list vs =>
    match t.member? with
    | some m => (encodeItems m vs).map fun members => some (arrayBytes t m members)
    | none => .error (.mismatch .list t)

/-- The first item that does not suit the members decides the error. -/
def encodeItems (m : DataType) : List Value → Except BindError (List Encoding)
  | [] => .ok []
  | v :: vs =>
    match encode m v with
    | .ok e => (encodeItems m vs).map (e :: ·)
    | .error err => .error err

end

/-- The encoding of a value for a type that is first checked by itself. -/
def bind (t : DataType) (v : Value) : Except BindError Encoding :=
  if t.accepted then encode t v else .error (.notAccepted t)

end Criteria.Postgres
