import Criteria.Numeric.Hexadecimal

/-! Universally unique identifiers. -/
namespace Criteria

structure Uuid where
  bits : BitVec 128
deriving DecidableEq

namespace Uuid

/-- So many digits from a place on, counted from the most significant one. -/
def group (u : Uuid) (first count : Nat) : List Char :=
  (List.range count).map fun i => hexDigit (u.bits.toNat >>> (4 * (31 - (first + i))))

/-- Lower-case digits in groups of eight, four, four, four and twelve. -/
def text (u : Uuid) : String :=
  String.ofList (u.group 0 8 ++ '-' :: u.group 8 4 ++ '-' :: u.group 12 4 ++ '-' :: u.group 16 4 ++
    '-' :: u.group 20 12)

/-- Reads the grouped text, with digits of either case. -/
def ofText? (s : String) : Option Uuid := do
  let groups := s.split '-' |>.toList.map (·.toString.toList)
  if groups.map List.length ≠ [8, 4, 4, 4, 12] then none
  else
    let n ← groups.flatten.foldlM (fun n c => (hexValue? c).map (n * 16 + ·)) 0
    some ⟨BitVec.ofNat 128 n⟩

end Uuid

end Criteria
