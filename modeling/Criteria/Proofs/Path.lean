import Criteria.Defect

/-! How a place is spelled out for whoever reads an error or an event. -/
namespace Criteria.Path

/-- A key of the outermost object stands as it is. Further in, a key comes after a dot, and the
number of an item, counted from zero, between brackets. -/
inductive Spelled : Path → List Char → Prop where
  | root : Spelled .root ['<', 'r', 'o', 'o', 't', '>']
  | key (k : String) : Spelled (.key k) k.toList
  | member {p : Path} {cs : List Char} (h : Spelled p cs) (k : String) :
      Spelled (.member p k) (cs ++ '.' :: k.toList)
  | item {p : Path} {cs : List Char} (h : Spelled p cs) (i : Nat) :
      Spelled (.item p i) (cs ++ '[' :: Nat.toDigits 10 i ++ [']'])

variable {p : Path} {cs ds : List Char}

theorem Spelled.unique (hc : p.Spelled cs) (hd : p.Spelled ds) : cs = ds := by
  induction hc generalizing ds with
  | root =>
    cases hd
    rfl
  | key k =>
    cases hd
    rfl
  | member _ k ih =>
    cases hd with
    | member hd => rw [ih hd]
  | item _ i ih =>
    cases hd with
    | item hd => rw [ih hd]

theorem spelled_text (p : Path) : p.Spelled p.text.toList := by
  induction p with
  | root => exact .root
  | key k => exact .key k
  | member p k ih => simpa [text] using ih.member k
  | item p i ih =>
    simpa [text, Nat.toString_eq_ofList_toDigits] using ih.item i

/-- A place has one spelling, and that is its text. -/
theorem spelled_iff : p.Spelled cs ↔ p.text.toList = cs := by
  constructor
  · exact (spelled_text p).unique
  · rintro rfl
    exact spelled_text p

end Criteria.Path
