import Criteria.Postgres.Parameter

/-! Numbers and arrays as they are read back from their bytes. -/
namespace Criteria.Postgres

namespace Wire

/-- The number that bytes spell, the most significant first. -/
def natOf (bytes : List UInt8) : Nat := bytes.foldl (fun n b => 256 * n + b.toNat) 0

/-- The integer that bytes spell in two's complement. -/
def intOf (bytes : List UInt8) : Int :=
  if natOf bytes < 1 <<< (8 * bytes.length - 1) then natOf bytes
  else natOf bytes - (1 <<< (8 * bytes.length) : Nat)

/-- So many bytes, and those after them. -/
def split? : Nat → List UInt8 → Option (List UInt8 × List UInt8)
  | 0, bytes => some ([], bytes)
  | _ + 1, [] => none
  | count + 1, b :: bytes => (split? count bytes).map fun (front, rest) => (b :: front, rest)

def int? (bytes : List UInt8) : Option (Int × List UInt8) :=
  (split? 4 bytes).map fun (front, rest) => (intOf front, rest)

/-- A member of an array, and the bytes after it. -/
def member? (bytes : List UInt8) : Option (Encoding × List UInt8) := do
  let (size, rest) ← int? bytes
  if size = -1 then some (none, rest)
  else if size < 0 then none
  else
    let (member, rest) ← split? size.toNat rest
    some (some member, rest)

def members? : Nat → List UInt8 → Option (List Encoding × List UInt8)
  | 0, bytes => some ([], bytes)
  | count + 1, bytes => do
    let (member, rest) ← member? bytes
    let (members, rest) ← members? count rest
    some (member :: members, rest)

variable {width count n : Nat} {front rest bytes : List UInt8} {k : Int}

theorem natOf_append_byte (b : UInt8) : natOf (bytes ++ [b]) = 256 * natOf bytes + b.toNat := by
  simp [natOf]

theorem shift_succ (width : Nat) : 1 <<< (8 * (width + 1)) = 256 * (1 <<< (8 * width)) := by
  rw [Nat.mul_succ, Nat.shiftLeft_add, Nat.shiftLeft_eq _ 8]
  omega

theorem shift_eq_two_mul (h : 0 < width) : 1 <<< (8 * width) = 2 * (1 <<< (8 * width - 1)) := by
  have hwidth : 8 * width = 8 * width - 1 + 1 := by omega
  rw [hwidth, Nat.shiftLeft_add, Nat.shiftLeft_eq _ 1]
  simp
  omega

theorem natOf_natBytes (h : n < 1 <<< (8 * width)) : natOf (natBytes width n) = n := by
  induction width generalizing n with
  | zero => simp_all [natBytes, natOf]
  | succ width ih =>
    rw [shift_succ] at h
    rw [natBytes, natOf_append_byte, ih (by omega), UInt8.toNat_ofNat']
    omega

/-- Two's complement loses nothing of an integer that fits. -/
theorem intOf_intBytes (hwidth : 0 < width) (low : -((1 <<< (8 * width - 1) : Nat) : Int) ≤ k)
    (high : k < (1 <<< (8 * width - 1) : Nat)) : intOf (intBytes width k) = k := by
  have hfull := shift_eq_two_mul hwidth
  have hmod : k % (1 <<< (8 * width) : Nat) =
      if 0 ≤ k then k else k + (1 <<< (8 * width) : Nat) := by
    split
    · exact Int.emod_eq_of_lt (by omega) (by omega)
    · rw [← Int.add_emod_right]
      exact Int.emod_eq_of_lt (by omega) (by omega)
  have hnat : natOf (intBytes width k) = (k % (1 <<< (8 * width) : Nat)).toNat :=
    natOf_natBytes (by split at hmod <;> omega)
  rw [intOf, hnat, length_intBytes]
  split at hmod <;> split <;> omega

theorem split?_append (h : front.length = count) :
    split? count (front ++ rest) = some (front, rest) := by
  subst h
  induction front with
  | nil => rfl
  | cons b front ih => simp [split?, ih]

theorem int?_append (low : -2147483648 ≤ k) (high : k < 2147483648) :
    int? (intBytes 4 k ++ rest) = some (k, rest) := by
  have hk : intOf (intBytes 4 k) = k := intOf_intBytes (by decide) low high
  simp [int?, split?_append (length_intBytes 4 k), hk]

variable {e : Encoding} {es : List Encoding}

theorem member?_append (h : ∀ bytes ∈ e, bytes.length < 2147483648) :
    member? (memberBytes e ++ rest) = some (e, rest) := by
  cases e with
  | none => simp [member?, memberBytes, int?_append]
  | some bytes =>
    have hlength : bytes.length < 2147483648 := h bytes rfl
    have hsize : int? (intBytes 4 bytes.length ++ (bytes ++ rest)) =
        some ((bytes.length : Int), bytes ++ rest) := int?_append (by omega) (by omega)
    have hnull : (bytes.length : Int) ≠ -1 := by omega
    have hneg : ¬(bytes.length : Int) < 0 := by omega
    simp [member?, memberBytes, hsize, hnull, hneg, split?_append]

/-- What is read of one member is read of all. -/
theorem members?_append (h : ∀ e ∈ es, ∀ bytes ∈ e, bytes.length < 2147483648) :
    members? es.length (es.flatMap memberBytes ++ rest) = some (es, rest) := by
  induction es with
  | nil => rfl
  | cons e es ih =>
    obtain ⟨he, hes⟩ := List.forall_mem_cons.mp h
    simp [members?, member?_append he, ih hes]

end Wire

/-- What the bytes of an array of one dimension say. -/
structure ArrayImage where
  hasNull : Bool
  memberOid : Nat
  lowerBound : Int
  members : List Encoding

/-- Reads an array, after which no bytes may be left. -/
def ArrayImage.ofBytes? (bytes : List UInt8) : Option ArrayImage := do
  let (dimensions, rest) ← Wire.int? bytes
  let (flag, rest) ← Wire.int? rest
  let (oid, rest) ← Wire.split? 4 rest
  let (count, rest) ← Wire.int? rest
  let (lowerBound, rest) ← Wire.int? rest
  let (members, rest) ← Wire.members? count.toNat rest
  if dimensions = 1 ∧ (flag = 0 ∨ flag = 1) ∧ 0 ≤ count ∧ rest = [] then
    some ⟨flag = 1, Wire.natOf oid, lowerBound, members⟩
  else none

theorem ArrayImage.ofBytes?_arrayBytes {t m : DataType} {es : List Encoding}
    (hoid : m.oid < 4294967296) (hcount : es.length < 2147483648)
    (hes : ∀ e ∈ es, ∀ bytes ∈ e, bytes.length < 2147483648) :
    ofBytes? (arrayBytes t m es) = some ⟨es.contains none, m.oid, t.lowerBound, es⟩ := by
  have hdimensions (rest : List UInt8) : Wire.int? (Wire.intBytes 4 1 ++ rest) = some (1, rest) :=
    Wire.int?_append (by decide) (by decide)
  have hflag (rest : List UInt8) :
      Wire.int? (Wire.intBytes 4 (if es.contains none then 1 else 0) ++ rest) =
        some (if es.contains none then 1 else 0, rest) :=
    Wire.int?_append (by split <;> decide) (by split <;> decide)
  have hoidRead : Wire.natOf (Wire.natBytes 4 m.oid) = m.oid := Wire.natOf_natBytes hoid
  have hlength (rest : List UInt8) : Wire.int? (Wire.intBytes 4 es.length ++ rest) =
      some ((es.length : Int), rest) :=
    Wire.int?_append (by omega) (by omega)
  have hlower (rest : List UInt8) : Wire.int? (Wire.intBytes 4 t.lowerBound ++ rest) =
      some (t.lowerBound, rest) := by
    refine Wire.int?_append ?_ ?_ <;> rw [DataType.lowerBound] <;> split <;> decide
  have hmembers : Wire.members? es.length (es.flatMap memberBytes ++ []) = some (es, []) :=
    Wire.members?_append hes
  rw [List.append_nil] at hmembers
  simp only [arrayBytes, List.append_assoc, ofBytes?, hdimensions, hflag, hlength, hlower,
    Wire.split?_append (Wire.length_natBytes 4 m.oid), hoidRead, hmembers, Option.bind_eq_bind,
    Option.bind_some, Int.toNat_natCast]
  cases es.contains none <;> simp

end Criteria.Postgres
