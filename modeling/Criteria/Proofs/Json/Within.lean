import Criteria.Proofs.Json.Defects

/-! The defects of a document that stands within another. -/
namespace Criteria

namespace Path

variable {base p : Path}

/-- Where a place of a document lies once the document stands at `base`. -/
def within : Path → Path → Path
  | root, base => base
  | key k, base => member base k
  | member p k, base => member (p.within base) k
  | item p i, base => item (p.within base) i

/-- A place inside the outermost object. -/
def IsInner : Path → Prop
  | root => False
  | key _ => True
  | member p _ => p.IsInner
  | item p _ => p.IsInner

theorem IsInner.within (h : base.IsInner) (p : Path) : (p.within base).IsInner := by
  induction p with
  | root => exact h
  | key k => exact h
  | member p k ih => exact ih
  | item p i ih => exact ih

theorem text_within (h : p.IsInner) : (p.within base).text = base.text ++ "." ++ p.text := by
  induction p with
  | root => exact h.elim
  | key k => rfl
  | member p k ih =>
    rw [Path.within, text, ih h, text]
    simp only [String.append_assoc]
  | item p i ih =>
    rw [Path.within, text, ih h, text]
    simp only [String.append_assoc]

end Path

def Defect.within (d : Defect) (base : Path) : Defect := ⟨d.path.within base, d.reason⟩

namespace Json

variable {limit : Option Nat} {base path : Path} {depth : Nat}

theorem map_within_conditionDefects {operator : Json} {operand : List Defect} :
    (conditionDefects path operator operand).map (·.within base) =
      conditionDefects (path.within base) operator (operand.map (·.within base)) := by
  cases operator <;> rfl

theorem map_within_itemDefects {js : List Json}
    (h : ∀ j ∈ js, ∀ path depth, (j.defects limit path depth).map (·.within base) =
      j.defects limit (path.within base) depth) (i : Nat) :
    (itemDefects limit path depth i js).map (·.within base) =
      itemDefects limit (path.within base) depth i js := by
  induction js generalizing i with
  | nil => rfl
  | cons j js ih =>
    obtain ⟨hj, hjs⟩ := List.forall_mem_cons.mp h
    rw [itemDefects, itemDefects, List.map_append, hj, ih hjs]
    rfl

/-- The place of a value is the beginning of the places of its defects. -/
theorem map_within_defects (j : Json) : ∀ (path : Path) (depth : Nat),
    (j.defects limit path depth).map (·.within base) =
      j.defects limit (path.within base) depth := by
  induction j using Json.induction with
  | null | bool _ | number _ | string _ =>
    intro path depth
    simp only [defects]
    split <;> rfl
  | array js ih =>
    intro path depth
    by_cases hd : Fits limit depth
    · rw [defects_array hd, defects_array hd]
      exact map_within_itemDefects ih 0
    · rw [defects_of_not_fits hd, defects_of_not_fits hd]
      rfl
  | object es ih =>
    intro path depth
    by_cases hd : Fits limit depth
    · rw [defects_object hd, defects_object hd]
      cases hc : (Json.object es).condition? with
      | none => rfl
      | some c =>
        have hoperand := ih _ (operand_mem hc) (path.member "value") (depth + 1)
        dsimp only
        rw [map_within_conditionDefects, hoperand]
        rfl
    · rw [defects_of_not_fits hd, defects_of_not_fits hd]
      rfl

theorem map_within_termDefects (j : Json) (path : Path) :
    (j.termDefects path).map (·.within base) = j.termDefects (path.within base) := by
  unfold termDefects
  split
  · split
    · rfl
    · split <;> rfl
    · rfl
  · rfl

theorem map_within_orderDefects (j : Json) (path : Path) :
    (j.orderDefects path).map (·.within base) = j.orderDefects (path.within base) := by
  unfold orderDefects
  split
  · rfl
  · rfl
  · rw [List.map_flatMap]
    simp only [map_within_termDefects, Path.within]
  · split
    · rfl
    · exact map_within_termDefects _ path
  · rfl

theorem map_within_rootDefects {f : String × Json → List Defect} (j : Json) :
    (j.rootDefects none f).map (·.within base) =
      j.rootDefects (some base) fun e => (f e).map (·.within base) := by
  cases j with
  | object es => exact List.map_flatMap
  | _ => rfl

end Json

namespace ReadRequest

variable {limit : Option Nat} {base : Path} {e : String × Json} {d : Defect}

theorem map_within_entryDefects :
    (entryDefects limit none e).map (·.within base) = entryDefects limit (some base) e := by
  unfold entryDefects
  split
  · exact Json.map_within_orderDefects e.2 _
  · exact Json.map_within_defects e.2 _ 0

/-- An entry has its defects inside the object. -/
theorem isInner_of_mem_entryDefects (h : d ∈ entryDefects limit none e) : d.path.IsInner := by
  have hkey : (Path.key e.1).IsInner := trivial
  -- the defects of the entry are those of its value, moved to the key
  have hwithin : ∃ ds : List Defect, entryDefects limit none e = ds.map (·.within (.key e.1)) := by
    unfold entryDefects
    split
    · exact ⟨_, (Json.map_within_orderDefects e.2 .root).symm⟩
    · exact ⟨_, (Json.map_within_defects e.2 .root 0).symm⟩
  obtain ⟨ds, hds⟩ := hwithin
  rw [hds] at h
  obtain ⟨d, -, rfl⟩ := List.mem_map.mp h
  exact hkey.within d.path

end ReadRequest

end Criteria
