import Criteria.Proofs.Postgres.Acceptance
import Criteria.Proofs.Postgres.Decoding
import Criteria.Value.Convert

/-! Integers lose nothing as parameters, neither alone nor in arrays. -/
namespace Criteria.Postgres

/-- The built-in types of integers. -/
inductive IntegerType where
  | int2
  | int4
  | int8

namespace IntegerType

def type : IntegerType → DataType
  | int2 => .builtin .int2
  | int4 => .builtin .int4
  | int8 => .builtin .int8

/-- The number of bytes. -/
def width : IntegerType → Nat
  | int2 => 2
  | int4 => 4
  | int8 => 8

/-- The least number that is too large. -/
def bound : IntegerType → Int
  | int2 => 32768
  | int4 => 2147483648
  | int8 => 9223372036854775808

def Fits (i : IntegerType) (n : Int64) : Prop := -i.bound ≤ n.toInt ∧ n.toInt < i.bound

variable {i : IntegerType} {n : Int64} {ns : List (Option Int64)} {t : DataType}

theorem bound_eq (i : IntegerType) : i.bound = (1 <<< (8 * i.width - 1) : Nat) := by
  cases i <;> rfl

theorem fits_iff : i.Fits n ↔
    -((1 <<< (8 * i.width - 1) : Nat) : Int) ≤ n.toInt ∧
      n.toInt < (1 <<< (8 * i.width - 1) : Nat) := by
  rw [Fits, bound_eq]

theorem width_pos (i : IntegerType) : 0 < i.width := by
  cases i <;> decide

theorem encode_int (i : IntegerType) (n : Int64) :
    encode i.type (.int n) = encodeInt i.width n.toInt := by
  cases i <;> rfl

theorem encode_int_of_fits (h : i.Fits n) :
    encode i.type (.int n) = .ok (some (Wire.intBytes i.width n.toInt)) := by
  rw [encode_int, encodeInt]
  exact if_pos (fits_iff.mp h)

theorem encode_int_of_not_fits (h : ¬i.Fits n) : encode i.type (.int n) = .error .outOfRange := by
  rw [encode_int, encodeInt]
  exact if_neg (mt fits_iff.mpr h)

theorem encode_int_ok_iff_fits : (∃ e, encode i.type (.int n) = .ok e) ↔ i.Fits n := by
  rw [encode_int, encodeInt_ok_iff i.bound i.bound_eq]
  rfl

theorem intOf_intBytes (h : i.Fits n) : Wire.intOf (Wire.intBytes i.width n.toInt) = n.toInt := by
  obtain ⟨low, high⟩ := fits_iff.mp h
  exact Wire.intOf_intBytes i.width_pos low high

/-- The bytes of an integer, or none for null. -/
def memberOf (i : IntegerType) (n : Option Int64) : Encoding :=
  n.map fun n => Wire.intBytes i.width n.toInt

/-- The integer that a member is, if it has the right number of bytes. -/
def ofMember? (i : IntegerType) : Encoding → Option (Option Int)
  | none => some none
  | some bytes => if bytes.length = i.width then some (some (Wire.intOf bytes)) else none

theorem encode_member {k : Option Int64} (h : ∀ n ∈ k, i.Fits n) :
    encode i.type (toValue k) = .ok (i.memberOf k) := by
  cases k with
  | none => rfl
  | some n => exact encode_int_of_fits (h n rfl)

theorem ofMember?_memberOf {k : Option Int64} (h : ∀ n ∈ k, i.Fits n) :
    i.ofMember? (i.memberOf k) = some (k.map Int64.toInt) := by
  cases k with
  | none => rfl
  | some n => simp [memberOf, ofMember?, intOf_intBytes (h n rfl)]

theorem encodeItems_integers (h : ∀ k ∈ ns, ∀ n ∈ k, i.Fits n) :
    encodeItems i.type (ns.map toValue) = .ok (ns.map i.memberOf) := by
  induction ns with
  | nil => rfl
  | cons k ns ih =>
    obtain ⟨hk, hns⟩ := List.forall_mem_cons.mp h
    rw [List.map_cons, encodeItems, encode_member hk, ih hns]
    rfl

theorem mapM_ofMember? (h : ∀ k ∈ ns, ∀ n ∈ k, i.Fits n) :
    (ns.map i.memberOf).mapM i.ofMember? = some (ns.map (Option.map Int64.toInt)) := by
  induction ns with
  | nil => rfl
  | cons k ns ih =>
    obtain ⟨hk, hns⟩ := List.forall_mem_cons.mp h
    simp [ofMember?_memberOf hk, ih hns]

theorem encode_array (ht : t.member? = some i.type) (h : ∀ k ∈ ns, ∀ n ∈ k, i.Fits n) :
    encode t (.list (ns.map toValue)) =
      .ok (some (arrayBytes t i.type (ns.map i.memberOf))) := by
  rw [encode, ht]
  dsimp only
  rw [encodeItems_integers h]
  rfl

theorem encode_array_ok_iff (ht : t.member? = some i.type) :
    (∃ e, encode t (.list (ns.map toValue)) = .ok e) ↔ ∀ k ∈ ns, ∀ n ∈ k, i.Fits n := by
  constructor
  · rintro he k hk n rfl
    obtain ⟨m, hm, hitems⟩ := encode_list_ok_iff.mp he
    obtain rfl := Option.some.inj (ht.symm.trans hm)
    exact encode_int_ok_iff_fits.mp (hitems (toValue (some n)) (List.mem_map_of_mem hk))
  · intro h
    exact ⟨_, encode_array ht h⟩

theorem ofBytes?_array (hns : ns.length < 2147483648) :
    ArrayImage.ofBytes? (arrayBytes t i.type (ns.map i.memberOf)) =
      some ⟨(ns.map i.memberOf).contains none, i.type.oid, t.lowerBound, ns.map i.memberOf⟩ := by
  refine ArrayImage.ofBytes?_arrayBytes ?_ (by simpa using hns) ?_
  · cases i <;> decide
  · intro e he bytes hbytes
    obtain ⟨k, -, rfl⟩ := List.mem_map.mp he
    obtain ⟨n, -, rfl⟩ := Option.map_eq_some_iff.mp hbytes
    rw [Wire.length_intBytes]
    cases i <;> decide

theorem contains_none_iff : (ns.map i.memberOf).contains none = true ↔ none ∈ ns := by
  simp [memberOf]

end IntegerType

/-- What the bytes of an array of integers say of it. -/
structure ReadsBack (i : IntegerType) (t : DataType) (ns : List (Option Int64))
    (image : ArrayImage) : Prop where
  hasNull_iff : image.hasNull = true ↔ none ∈ ns
  memberOid : image.memberOid = i.type.oid
  lowerBound : image.lowerBound = t.lowerBound
  members : image.members.mapM i.ofMember? = some (ns.map (Option.map Int64.toInt))

/-- Integers that fit are written so that they are read back as they were, and others are refused,
alone and, with nulls among them, in arrays. -/
structure CarriesIntegers (i : IntegerType) (t : DataType) (ns : List (Option Int64)) : Prop where
  ok_iff : (∃ e, encode t (.list (ns.map toValue)) = .ok e) ↔ ∀ n, some n ∈ ns → i.Fits n
  readsBack : ∀ e, encode t (.list (ns.map toValue)) = .ok e → ∃ bytes image, e = some bytes ∧
    ArrayImage.ofBytes? bytes = some image ∧ ReadsBack i t ns image
  single : ∀ n : Int64, i.Fits n → ∃ bytes, encode i.type (.int n) = .ok (some bytes) ∧
    bytes.length = i.width ∧ Wire.intOf bytes = n.toInt
  single_error : ∀ n : Int64, ¬i.Fits n → encode i.type (.int n) = .error .outOfRange
  checked : ∀ v : Value, bind t v = encode t v ∧ bind i.type v = encode i.type v

theorem integers_carried (i : IntegerType) (t : DataType) (ns : List (Option Int64))
    (ht : t.member? = some i.type) (hns : ns.length < 2147483648) : CarriesIntegers i t ns := by
  have hfits : (∀ k ∈ ns, ∀ n ∈ k, i.Fits n) ↔ ∀ n, some n ∈ ns → i.Fits n := by
    constructor
    · intro h n hn
      exact h _ hn n rfl
    · rintro h k hk n rfl
      exact h n hk
  have haccepted : i.type.accepted = true := by
    cases i <;> rfl
  constructor
  · rw [IntegerType.encode_array_ok_iff ht, hfits]
  · intro e he
    have h := (IntegerType.encode_array_ok_iff ht).mp ⟨e, he⟩
    rw [IntegerType.encode_array ht h] at he
    cases he
    exact ⟨_, _, rfl, IntegerType.ofBytes?_array hns, IntegerType.contains_none_iff, rfl, rfl,
      IntegerType.mapM_ofMember? h⟩
  · intro n h
    exact ⟨_, IntegerType.encode_int_of_fits h, Wire.length_intBytes _ _,
      IntegerType.intOf_intBytes h⟩
  · intro n h
    exact IntegerType.encode_int_of_not_fits h
  · intro v
    refine ⟨bind_of_accepted ?_, bind_of_accepted haccepted⟩
    rw [DataType.accepted_of_array ht, haccepted]

/-- The widest range of the narrowest type, in the array whose indices count from zero. -/
theorem integers_carried_int2vector :
    (DataType.builtin .int2vector).member? = some IntegerType.int2.type ∧
      CarriesIntegers .int2 (.builtin .int2vector) [some (-32768), none, some 32767] :=
  ⟨rfl, integers_carried .int2 (.builtin .int2vector) [some (-32768), none, some 32767] rfl
    (by decide)⟩

/-- Minus two takes its length and two bytes, and a null only the length -1. -/
example : encode (.builtin .int2Array) (.list [.int (-2), .null]) = .ok (some
    ([0, 0, 0, 1] ++ [0, 0, 0, 1] ++ [0, 0, 0, 21] ++ [0, 0, 0, 2] ++ [0, 0, 0, 1] ++
      ([0, 0, 0, 2] ++ [255, 254]) ++ [255, 255, 255, 255])) := by
  rfl

end Criteria.Postgres
