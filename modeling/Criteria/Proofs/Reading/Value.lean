import Criteria.Proofs.Json.Basic
import Criteria.Reading.Value

/-! The values that a reading without a limit of depth keeps. -/
namespace Criteria.Value

variable {path : Path} {depth : Nat} {js : List Json} {es : List (String × Json)}

theorem ofJson_eq_of_read {j : Json} {v : Value}
    (h : (read .unlimited .root 0 j).result = .ok (some v)) : ofJson j = v := by
  rw [ofJson, reading, h]

theorem read_unlimited_of {j : Json} {v : Value}
    (h : ∀ path depth, (read .unlimited path depth j).result = .ok (some v)) (path : Path)
    (depth : Nat) : (read .unlimited path depth j).result = .ok (some (ofJson j)) := by
  rw [ofJson_eq_of_read (h .root 0), h]

theorem readItems_unlimited (h : ∀ j ∈ js, ∀ path depth,
      (read .unlimited path depth j).result = .ok (some (ofJson j))) (i : Nat) :
    (readItems .unlimited path depth i js).result = .ok (some (js.map ofJson)) := by
  induction js generalizing i with
  | nil => rfl
  | cons j js ih =>
    have hj := h j List.mem_cons_self (path.item i) (depth + 1)
    have hjs := ih (fun j hj => h j (List.mem_cons_of_mem _ hj)) (i + 1)
    rw [readItems]
    exact Reading.bind_eq_ok.mpr ⟨_, hj, Reading.bind_eq_ok.mpr ⟨_, hjs, rfl⟩⟩

theorem read_array_unlimited (h : ∀ j ∈ js, ∀ path depth,
      (read .unlimited path depth j).result = .ok (some (ofJson j))) (path : Path) (depth : Nat) :
    (read .unlimited path depth (.array js)).result = .ok (some (.list (js.map ofJson))) := by
  rw [read_array rfl]
  exact Reading.bind_eq_ok.mpr ⟨_, readItems_unlimited h 0, rfl⟩

/-- What a condition stands for. -/
def ofCondition (whole : List (String × Json)) (operator operand : Json) : Value :=
  match operator with
  | .string o => .comparison o (ofJson operand)
  | _ => .object whole

theorem read_object_unlimited (h : ∀ e ∈ es, ∀ path depth,
      (read .unlimited path depth e.2).result = .ok (some (ofJson e.2))) (path : Path)
    (depth : Nat) : (read .unlimited path depth (.object es)).result = .ok (some
      (match (Json.object es).condition? with
      | some (operator, operand) => ofCondition es operator operand
      | none => .object es)) := by
  rw [read_object rfl]
  cases hc : (Json.object es).condition? with
  | none => rfl
  | some c =>
    obtain ⟨operator, operand⟩ := c
    have hoperand := h _ (Json.operand_mem hc) (path.member "value") (depth + 1)
    cases operator with
    | string o => exact Reading.bind_eq_ok.mpr ⟨_, hoperand, rfl⟩
    | _ => exact Reading.bind_eq_ok.mpr ⟨(), rfl, rfl⟩

/-- Without a limit of depth every value is kept, and it does not depend on its place. -/
theorem read_unlimited (j : Json) : ∀ path depth,
    (read .unlimited path depth j).result = .ok (some (ofJson j)) := by
  induction j using Json.induction with
  | null | bool _ | number _ | string _ => exact read_unlimited_of fun _ _ => rfl
  | array js ih => exact read_unlimited_of (read_array_unlimited ih)
  | object es ih => exact read_unlimited_of (read_object_unlimited ih)

theorem ofJson_array (js : List Json) : ofJson (.array js) = .list (js.map ofJson) :=
  ofJson_eq_of_read (read_array_unlimited (fun j _ => read_unlimited j) .root 0)

theorem ofJson_object (es : List (String × Json)) : ofJson (.object es) =
    match (Json.object es).condition? with
    | some (operator, operand) => ofCondition es operator operand
    | none => .object es :=
  ofJson_eq_of_read (read_object_unlimited (fun e _ => read_unlimited e.2) .root 0)

end Criteria.Value
