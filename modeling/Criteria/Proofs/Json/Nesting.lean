import Criteria.Proofs.Json.Basic

/-! How deep the lists and the conditions of a JSON value nest. -/
namespace Criteria

/-- A number within a limit, if there is one. -/
def Fits (limit : Option Nat) (n : Nat) : Prop := ∀ d ∈ limit, n ≤ d

namespace Fits

variable {limit : Option Nat} {m n : Nat}

instance : DecidablePred (Fits limit) := fun n =>
  inferInstanceAs (Decidable (∀ d ∈ limit, n ≤ d))

theorem zero : Fits limit 0 := fun d _ => Nat.zero_le d

theorem of_le (h : Fits limit n) (hmn : m ≤ n) : Fits limit m := fun d hd => hmn.trans (h d hd)

theorem max_iff : Fits limit (max m n) ↔ Fits limit m ∧ Fits limit n := by
  constructor
  · intro h
    exact ⟨h.of_le (Nat.le_max_left m n), h.of_le (Nat.le_max_right m n)⟩
  · rintro ⟨hm, hn⟩ d hd
    exact Nat.max_le.mpr ⟨hm d hd, hn d hd⟩

end Fits

namespace Json

/-- A condition lies around its operand, but an object whose operator is no text is plain data. -/
def conditionNesting (operator : Json) (operand : Nat) : Nat :=
  match operator with
  | .string _ => operand + 1
  | _ => 0

mutual

/-- Arrays and conditions nest. A plain object does not, whatever it holds. -/
def nesting : Json → Nat
  | .array js => itemNesting js
  | .object [(k, x), (l, y)] =>
    if k = "operator" ∧ l = "value" then conditionNesting x (nesting y)
    else if k = "value" ∧ l = "operator" then conditionNesting y (nesting x)
    else 0
  | _ => 0

def itemNesting : List Json → Nat
  | [] => 0
  | j :: js => max (nesting j + 1) (itemNesting js)

end

theorem fits_itemNesting_cons {limit : Option Nat} {depth : Nat} {j : Json} {js : List Json} :
    Fits limit (depth + itemNesting (j :: js)) ↔
      Fits limit (depth + 1 + j.nesting) ∧ Fits limit (depth + itemNesting js) := by
  have hj : depth + (j.nesting + 1) = depth + 1 + j.nesting := by omega
  rw [itemNesting, ← Nat.add_max_add_left, Fits.max_iff, hj]

theorem nesting_object (es : List (String × Json)) : nesting (.object es) =
    match (Json.object es).condition? with
    | some (operator, operand) => conditionNesting operator operand.nesting
    | none => 0 := by
  match es with
  | [] | [_] | _ :: _ :: _ :: _ => simp [nesting, condition?]
  | [(k, x), (l, y)] =>
    rw [nesting, condition?]
    split
    · rfl
    · split <;> rfl

example : nesting (.array [.object [("value", .array [.null]), ("operator", .string "in")]]) = 3 :=
  rfl

end Json

end Criteria
