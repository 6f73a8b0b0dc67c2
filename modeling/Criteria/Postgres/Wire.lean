/-! Numbers as big-endian bytes. -/
namespace Criteria.Postgres.Wire

/-- The lowest bytes of a number, the most significant first. -/
def natBytes : Nat → Nat → List UInt8
  | 0, _ => []
  | width + 1, n => natBytes width (n / 256) ++ [UInt8.ofNat n]

/-- An integer in two's complement. -/
def intBytes (width : Nat) (n : Int) : List UInt8 :=
  natBytes width (n % (1 <<< (8 * width) : Nat)).toNat

@[simp] theorem length_natBytes (width n : Nat) : (natBytes width n).length = width := by
  induction width generalizing n with
  | zero => rfl
  | succ width ih => simp [natBytes, ih]

@[simp] theorem length_intBytes (width : Nat) (n : Int) : (intBytes width n).length = width :=
  length_natBytes ..

end Criteria.Postgres.Wire
