import Criteria.Defect
import Criteria.Proofs.Json.Nesting

/-! The positions of a value in the order of the document, as far as a reading can go. -/
namespace Criteria.Json

/-- A place within a value, how many arrays and conditions lie around it, and what stands there. -/
structure Position where
  path : Path
  depth : Nat
  value : Json

/-- The operand of an object whose operator is no text is plain data, and no position. -/
def conditionPositions (operator : Json) (operand : List Position) : List Position :=
  match operator with
  | .string _ => operand
  | _ => []

mutual

/-- A value stands before its parts. What a plain object holds is none of them. -/
def positions (path : Path) (depth : Nat) (j : Json) : List Position :=
  ⟨path, depth, j⟩ ::
    match j with
    | .array js => itemPositions path depth 0 js
    | .object [(k, x), (l, y)] =>
      if k = "operator" ∧ l = "value" then
        conditionPositions x (positions (path.member "value") (depth + 1) y)
      else if k = "value" ∧ l = "operator" then
        conditionPositions y (positions (path.member "value") (depth + 1) x)
      else []
    | _ => []

def itemPositions (path : Path) (depth i : Nat) : List Json → List Position
  | [] => []
  | j :: js => positions (path.item i) (depth + 1) j ++ itemPositions path depth (i + 1) js

end

theorem positions_object (path : Path) (depth : Nat) (es : Entries Json) :
    positions path depth (.object es) = ⟨path, depth, .object es⟩ ::
      match (Json.object es).condition? with
      | some (operator, operand) =>
        conditionPositions operator (operand.positions (path.member "value") (depth + 1))
      | none => [] := by
  match es with
  | [] | [_] | _ :: _ :: _ :: _ => simp [positions, condition?]
  | [(k, x), (l, y)] =>
    rw [positions, condition?]
    split
    · rfl
    · split <;> rfl

namespace Position

variable {limit : Nat} {ps qs : List Position}

/-- An object that would be a condition if its operator were a text. -/
def defect? (p : Position) : Option Defect :=
  match p.value.condition? with
  | none | some (.string _, _) => none
  | some _ => some ⟨p.path.member "operator", .operatorNotText⟩

def Shallow (limit : Nat) (ps : List Position) : Prop := ∀ p ∈ ps, p.depth ≤ limit

/-- What is wrong up to the first position beyond the limit, which is wrong itself. -/
def reported (limit : Nat) : List Position → List Defect
  | [] => []
  | p :: ps =>
    if p.depth ≤ limit then p.defect?.toList ++ reported limit ps else [⟨p.path, .tooDeep⟩]

theorem shallow_cons {p : Position} :
    Shallow limit (p :: ps) ↔ p.depth ≤ limit ∧ Shallow limit ps := List.forall_mem_cons

theorem shallow_append : Shallow limit (ps ++ qs) ↔ Shallow limit ps ∧ Shallow limit qs :=
  List.forall_mem_append

theorem reported_append (h : Shallow limit ps) :
    reported limit (ps ++ qs) = ps.filterMap defect? ++ reported limit qs := by
  induction ps with
  | nil => rfl
  | cons p ps ih =>
    obtain ⟨hp, hps⟩ := shallow_cons.mp h
    rw [List.cons_append, reported, if_pos hp, ih hps, List.filterMap_cons]
    cases p.defect? <;> rfl

theorem reported_of_shallow (h : Shallow limit ps) : reported limit ps = ps.filterMap defect? := by
  have happend := @reported_append limit ps [] h
  simpa [reported] using happend

theorem exists_first_of_not_shallow (h : ¬Shallow limit ps) :
    ∃ before p after, ps = before ++ p :: after ∧ Shallow limit before ∧ limit < p.depth := by
  induction ps with
  | nil => exact (h (by simp [Shallow])).elim
  | cons p ps ih =>
    by_cases hp : p.depth ≤ limit
    · have hps : ¬Shallow limit ps := fun hps => h (shallow_cons.mpr ⟨hp, hps⟩)
      obtain ⟨before, q, after, rfl, hbefore, hq⟩ := ih hps
      exact ⟨p :: before, q, after, rfl, shallow_cons.mpr ⟨hp, hbefore⟩, hq⟩
    · exact ⟨[], p, ps, rfl, by simp [Shallow], Nat.lt_of_not_le hp⟩

theorem reported_of_first {before after : List Position} {p : Position}
    (hbefore : Shallow limit before) (hp : limit < p.depth) :
    reported limit (before ++ p :: after) = before.filterMap defect? ++ [⟨p.path, .tooDeep⟩] := by
  rw [reported_append hbefore, reported, if_neg (Nat.not_le.mpr hp)]

/-- Nothing after a position that lies too deep is reported. -/
theorem reported_append_of_not_shallow (h : ¬Shallow limit ps) :
    reported limit (ps ++ qs) = reported limit ps := by
  obtain ⟨before, p, after, rfl, hbefore, hp⟩ := exists_first_of_not_shallow h
  rw [List.append_assoc, List.cons_append, reported_of_first hbefore hp,
    reported_of_first hbefore hp]

end Position

section

variable {limit : Nat}

open Position (Shallow)

theorem shallow_itemPositions_iff {path : Path} {depth : Nat} {js : List Json}
    (hdepth : depth ≤ limit) (h : ∀ j ∈ js, ∀ path depth,
      Shallow limit (j.positions path depth) ↔ depth + j.nesting ≤ limit) (i : Nat) :
    Shallow limit (itemPositions path depth i js) ↔ depth + itemNesting js ≤ limit := by
  induction js generalizing i with
  | nil => simp [itemPositions, itemNesting, Shallow, hdepth]
  | cons j js ih =>
    have hj := h j List.mem_cons_self (path.item i) (depth + 1)
    have hjs := ih (fun j hj => h j (List.mem_cons_of_mem _ hj)) (i + 1)
    rw [itemPositions, Position.shallow_append, hj, hjs, itemNesting]
    omega

/-- The nesting of a value is the depth of its deepest position. -/
theorem shallow_positions_iff (j : Json) : ∀ (path : Path) (depth : Nat),
    Shallow limit (j.positions path depth) ↔ depth + j.nesting ≤ limit := by
  induction j using Json.induction with
  | null | bool _ | number _ | string _ =>
    intro path depth
    simp [positions, nesting, Shallow]
  | array js ih =>
    intro path depth
    rw [positions, Position.shallow_cons, nesting]
    constructor
    · rintro ⟨hdepth, hjs⟩
      exact (shallow_itemPositions_iff hdepth ih 0).mp hjs
    · intro h
      have hdepth : depth ≤ limit := by omega
      exact ⟨hdepth, (shallow_itemPositions_iff hdepth ih 0).mpr h⟩
  | object es ih =>
    intro path depth
    rw [positions_object, Position.shallow_cons, nesting_object]
    cases hc : (Json.object es).condition? with
    | none => simp [Shallow]
    | some c =>
      obtain ⟨operator, operand⟩ := c
      have hoperand : Shallow limit (operand.positions (path.member "value") (depth + 1)) ↔
          depth + 1 + operand.nesting ≤ limit := ih _ (operand_mem hc) _ _
      cases operator with
      | string o =>
        change depth ≤ limit ∧ Shallow limit (operand.positions _ _) ↔
          depth + (operand.nesting + 1) ≤ limit
        rw [hoperand]
        omega
      | _ => simp [conditionPositions, conditionNesting, Shallow]

end

end Criteria.Json
