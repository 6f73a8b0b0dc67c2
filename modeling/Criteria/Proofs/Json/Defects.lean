import Criteria.Defect
import Criteria.Proofs.Json.Nesting

/-! All that is wrong with a document, in its own order. -/
namespace Criteria

namespace Json

section

variable (limit : Option Nat) (path : Path)

/-- The operand of an object whose operator is no text is plain data. -/
def conditionDefects (operator : Json) (operand : List Defect) : List Defect :=
  match operator with
  | .string _ => operand
  | _ => [⟨path.member "operator", .operatorNotText⟩]

mutual

/-- The defects of a value. What lies too deep is not looked into. -/
def defects (path : Path) (depth : Nat) (j : Json) : List Defect :=
  if Fits limit depth then
    match j with
    | .array js => itemDefects path depth 0 js
    | .object [(k, x), (l, y)] =>
      if k = "operator" ∧ l = "value" then
        conditionDefects path x (defects (path.member "value") (depth + 1) y)
      else if k = "value" ∧ l = "operator" then
        conditionDefects path y (defects (path.member "value") (depth + 1) x)
      else []
    | _ => []
  else [⟨path, .tooDeep⟩]

def itemDefects (path : Path) (depth i : Nat) : List Json → List Defect
  | [] => []
  | j :: js => defects (path.item i) (depth + 1) j ++ itemDefects path depth (i + 1) js

end

/-- The defects of a term. Without a column nothing else of it counts. -/
def termDefects : Json → List Defect
  | .object es =>
    match Entries.get? "column" es with
    | none => [⟨path, .termWithoutColumn⟩]
    | some (.string _) =>
      match Entries.get? "direction" es with
      | none | some .null | some (.string _) => []
      | some _ => [⟨path.member "direction", .directionNotText⟩]
    | some _ => [⟨path.member "column", .columnNotText⟩]
  | _ => [⟨path, .termWithoutColumn⟩]

/-- The defects of an order. -/
def orderDefects : Json → List Defect
  | .null | .string _ => []
  | .array js => js.zipIdx.flatMap fun e => e.1.termDefects (path.item e.2)
  | .object es =>
    if Entries.get? "column" es = none then [⟨path, .orderNotUnderstood⟩]
    else termDefects path (.object es)
  | _ => [⟨path, .orderNotUnderstood⟩]

end

section

variable {limit : Option Nat} {path : Path} {depth : Nat} {j : Json}

theorem defects_of_not_fits (h : ¬Fits limit depth) :
    j.defects limit path depth = [⟨path, .tooDeep⟩] := by
  rw [defects.eq_def, if_neg h]

theorem defects_array (h : Fits limit depth) {js : List Json} :
    (Json.array js).defects limit path depth = itemDefects limit path depth 0 js := by
  rw [defects, if_pos h]

theorem defects_object (h : Fits limit depth) {es : List (String × Json)} :
    (Json.object es).defects limit path depth =
      match (Json.object es).condition? with
      | some (operator, operand) =>
        conditionDefects path operator (operand.defects limit (path.member "value") (depth + 1))
      | none => [] := by
  match es with
  | [] | [_] | _ :: _ :: _ :: _ => simp [defects, h, condition?]
  | [(k, x), (l, y)] =>
    rw [defects, if_pos h, condition?]
    split
    · rfl
    · split <;> rfl

theorem itemDefects_tooDeep_iff {js : List Json} (hd : Fits limit depth)
    (h : ∀ j ∈ js, ∀ path depth, (∀ d ∈ j.defects limit path depth, d.reason ≠ .tooDeep) ↔
      Fits limit (depth + j.nesting)) (i : Nat) :
    (∀ d ∈ itemDefects limit path depth i js, d.reason ≠ .tooDeep) ↔
      Fits limit (depth + itemNesting js) := by
  induction js generalizing i with
  | nil => simp [itemDefects, itemNesting, hd]
  | cons j js ih =>
    have hj := h j List.mem_cons_self (path.item i) (depth + 1)
    have hjs := ih (fun j hj => h j (List.mem_cons_of_mem _ hj)) (i + 1)
    rw [itemDefects, List.forall_mem_append, hj, hjs, fits_itemNesting_cons]

theorem defects_tooDeep_iff_of_not_fits (h : ¬Fits limit depth) :
    (∀ d ∈ j.defects limit path depth, d.reason ≠ .tooDeep) ↔ Fits limit (depth + j.nesting) := by
  refine iff_of_false ?_ fun hf => h (hf.of_le (Nat.le_add_right _ _))
  simp [defects_of_not_fits h]

/-- A part lies too deep just if the value nests too deep. -/
theorem defects_tooDeep_iff (j : Json) : ∀ (path : Path) (depth : Nat),
    (∀ d ∈ j.defects limit path depth, d.reason ≠ .tooDeep) ↔ Fits limit (depth + j.nesting) := by
  induction j using Json.induction with
  | null | bool _ | number _ | string _ =>
    intro path depth
    by_cases hd : Fits limit depth
    · simp [defects, nesting, hd]
    · exact defects_tooDeep_iff_of_not_fits hd
  | array js ih =>
    intro path depth
    by_cases hd : Fits limit depth
    · rw [defects_array hd]
      exact itemDefects_tooDeep_iff hd ih 0
    · exact defects_tooDeep_iff_of_not_fits hd
  | object es ih =>
    intro path depth
    by_cases hd : Fits limit depth
    · rw [defects_object hd, nesting_object]
      cases hc : (Json.object es).condition? with
      | none => simp [hd]
      | some c =>
        obtain ⟨operator, operand⟩ := c
        have hoperand := ih _ (operand_mem hc) (path.member "value") (depth + 1)
        cases operator with
        | string o =>
          have hn : depth + 1 + operand.nesting = depth + (operand.nesting + 1) := by omega
          rw [hn] at hoperand
          exact hoperand
        | _ => simp [conditionDefects, conditionNesting, hd]
    · exact defects_tooDeep_iff_of_not_fits hd

theorem termDefects_not_tooDeep : ∀ d ∈ j.termDefects path, d.reason ≠ .tooDeep := by
  unfold termDefects
  split
  · split
    · simp
    · split <;> simp
    · simp
  · simp

theorem orderDefects_not_tooDeep : ∀ d ∈ j.orderDefects path, d.reason ≠ .tooDeep := by
  unfold orderDefects
  split
  · simp
  · simp
  · intro d hd
    obtain ⟨e, -, hd⟩ := List.mem_flatMap.mp hd
    exact termDefects_not_tooDeep d hd
  · split
    · simp
    · exact termDefects_not_tooDeep
  · simp

end

/-- The defects of a document that should be an object or null. -/
def rootDefects (base : Option Path) (entry : String × Json → List Defect) : Json → List Defect
  | .object es => es.flatMap entry
  | .null => []
  | _ => [⟨base.getD .root, .notObject⟩]

/-- The first defect of a document depends on the first defect of each entry only. -/
theorem head?_rootDefects {base : Option Path} {f g : String × Json → List Defect}
    (h : ∀ e, (f e).head? = (g e).head?) (j : Json) :
    (j.rootDefects base f).head? = (j.rootDefects base g).head? := by
  cases j with
  | object es => simp only [rootDefects, List.head?_flatMap, h]
  | _ => rfl

end Json

def ReadRequest.entryDefects (limit : Option Nat) (base : Option Path) (e : String × Json) :
    List Defect :=
  if e.1 = "orderBy" then e.2.orderDefects (.under base e.1)
  else e.2.defects limit (.under base e.1) 0

def ReadRequest.defects (limit : Option Nat) (base : Option Path) : Json → List Defect :=
  Json.rootDefects base (entryDefects limit base)

def InsertRequest.defects (limit : Option Nat) : Json → List Defect :=
  Json.rootDefects none fun e => e.2.defects limit (.key e.1) 0

def UpdateRequest.defects (limit : Option Nat) : Json → List Defect :=
  Json.rootDefects none fun e =>
    if e.1 = "queryOptions" then ReadRequest.defects limit (some (.key e.1)) e.2
    else e.2.defects limit (.key e.1) 0

end Criteria
