import Criteria.Proofs.Json.Defects
import Criteria.Proofs.Json.Diagnosis

/-! The values that are acceptable as fields, and what goes wrong first in any other. -/
namespace Criteria.Json

section

variable (limit : Option Nat)

/-- Arrays and conditions are acceptable only if their parts are so one level deeper. -/
inductive Acceptable : Json → Nat → Prop where
  | array {js : List Json} {depth : Nat} (fits : Fits limit depth)
      (items : ∀ j ∈ js, Acceptable j (depth + 1)) : Acceptable (.array js) depth
  | condition {es : Entries Json} {o : String} {operand : Json} {depth : Nat}
      (fits : Fits limit depth) (keys : es.keys.Perm ["operator", "value"])
      (operator : es.get? "operator" = some (.string o)) (value : es.get? "value" = some operand)
      (h : Acceptable operand (depth + 1)) : Acceptable (.object es) depth
  | plain {j : Json} {depth : Nat} (fits : Fits limit depth) (array : ∀ js, j ≠ .array js)
      (keys : ∀ es, j = .object es → ¬(Entries.keys es).Perm ["operator", "value"]) :
      Acceptable j depth

/-- What goes wrong first in a value that is not acceptable. -/
inductive FirstDefect : Json → Path → Nat → Defect → Prop where
  | tooDeep {j : Json} {path : Path} {depth : Nat} (h : ¬Fits limit depth) :
      FirstDefect j path depth ⟨path, .tooDeep⟩
  | item {before after : List Json} {j : Json} {path : Path} {depth : Nat} {d : Defect}
      (fits : Fits limit depth) (accepted : ∀ x ∈ before, Acceptable limit x (depth + 1))
      (h : FirstDefect j (path.item before.length) (depth + 1) d) :
      FirstDefect (.array (before ++ j :: after)) path depth d
  | operator {es : Entries Json} {path : Path} {depth : Nat} (fits : Fits limit depth)
      (keys : es.keys.Perm ["operator", "value"])
      (operator : ∀ o, es.get? "operator" ≠ some (.string o)) :
      FirstDefect (.object es) path depth ⟨path.member "operator", .operatorNotText⟩
  | operand {es : Entries Json} {o : String} {operand : Json} {path : Path} {depth : Nat}
      {d : Defect} (fits : Fits limit depth) (keys : es.keys.Perm ["operator", "value"])
      (operator : es.get? "operator" = some (.string o)) (value : es.get? "value" = some operand)
      (h : FirstDefect operand (path.member "value") (depth + 1) d) :
      FirstDefect (.object es) path depth d

end

section

variable {limit : Option Nat} {path : Path} {depth : Nat} {j : Json}

theorem Acceptable.fits (h : Acceptable limit j depth) : Fits limit depth := by
  cases h <;> assumption

theorem diagnoses_of_not_fits (h : ¬Fits limit depth) :
    Diagnoses (j.defects limit path depth) (j.Acceptable limit depth)
      (j.FirstDefect limit path depth) := by
  rw [defects_of_not_fits h]
  refine .singleton (fun ha => h ha.fits) fun d => ?_
  constructor
  · intro hd
    cases hd with
    | tooDeep _ => rfl
    | item fits | operator fits | operand fits => exact (h fits).elim
  · rintro rfl
    exact .tooDeep h

theorem diagnoses_plain (hd : Fits limit depth) (array : ∀ js, j ≠ .array js)
    (keys : ∀ es, j = .object es → ¬(Entries.keys es).Perm ["operator", "value"]) :
    Diagnoses [] (j.Acceptable limit depth) (j.FirstDefect limit path depth) := by
  refine .nil (.plain hd array keys) fun d h => ?_
  cases h with
  | tooDeep h => exact h hd
  | item => exact array _ rfl
  | operator _ hk | operand _ hk => exact keys _ rfl hk

theorem itemDefects_eq_flatMap (js : List Json) (i : Nat) : itemDefects limit path depth i js =
    (js.zipIdx i).flatMap fun e => e.1.defects limit (path.item e.2) (depth + 1) := by
  induction js generalizing i with
  | nil => rfl
  | cons j js ih => rw [itemDefects, ih, List.zipIdx_cons, List.flatMap_cons]

theorem acceptable_array_iff {js : List Json} (hd : Fits limit depth) :
    (Json.array js).Acceptable limit depth ↔ ∀ j ∈ js, j.Acceptable limit (depth + 1) := by
  constructor
  · intro h
    cases h with
    | array _ items => exact items
    | plain _ array => exact (array js rfl).elim
  · exact .array hd

theorem acceptable_condition_iff {es : Entries Json} {o : String} {operand : Json}
    (hd : Fits limit depth) (keys : es.keys.Perm ["operator", "value"])
    (operator : es.get? "operator" = some (.string o)) (value : es.get? "value" = some operand) :
    (Json.object es).Acceptable limit depth ↔ operand.Acceptable limit (depth + 1) := by
  constructor
  · intro h
    cases h with
    | condition _ _ _ value' h =>
      rw [← Option.some.inj (value'.symm.trans value)]
      exact h
    | plain _ _ hk => exact (hk es rfl keys).elim
  · exact .condition hd keys operator value

theorem diagnoses_array {js : List Json} (hd : Fits limit depth)
    (h : ∀ j ∈ js, ∀ path depth, Diagnoses (j.defects limit path depth)
      (j.Acceptable limit depth) (j.FirstDefect limit path depth)) :
    Diagnoses ((Json.array js).defects limit path depth) ((Json.array js).Acceptable limit depth)
      ((Json.array js).FirstDefect limit path depth) := by
  rw [defects_array hd, itemDefects_eq_flatMap]
  refine (Diagnoses.zipIdx (fun j hj i => h j hj (path.item i) (depth + 1)) 0).congr
    (acceptable_array_iff hd).symm fun d => ?_
  constructor
  · rintro ⟨before, j, after, rfl, hb, hf⟩
    rw [Nat.zero_add] at hf
    exact .item hd hb hf
  · intro hf
    cases hf with
    | tooDeep h => exact (h hd).elim
    | item _ hb hf => exact ⟨_, _, _, rfl, hb, by rwa [Nat.zero_add]⟩

theorem diagnoses_condition {es : Entries Json} {operator operand : Json} (hd : Fits limit depth)
    (hc : (Json.object es).condition? = some (operator, operand))
    (h : Diagnoses (operand.defects limit (path.member "value") (depth + 1))
      (operand.Acceptable limit (depth + 1))
      (operand.FirstDefect limit (path.member "value") (depth + 1))) :
    Diagnoses (conditionDefects path operator
        (operand.defects limit (path.member "value") (depth + 1)))
      ((Json.object es).Acceptable limit depth) ((Json.object es).FirstDefect limit path depth) := by
  obtain ⟨keys, ho, hv⟩ := condition?_eq_some_iff.mp hc
  -- what follows a textual operator decides; any other operator is itself the defect
  by_cases hs : ∃ o, operator = .string o
  · obtain ⟨o, rfl⟩ := hs
    refine h.congr (acceptable_condition_iff hd keys ho hv).symm
      fun d => ⟨.operand hd keys ho hv, ?_⟩
    intro hf
    cases hf with
    | tooDeep h => exact (h hd).elim
    | operator _ _ hn => exact (hn o ho).elim
    | operand _ _ _ hv' hf =>
      rw [← Option.some.inj (hv'.symm.trans hv)]
      exact hf
  · have hn : ∀ o, es.get? "operator" ≠ some (.string o) := by
      intro o ho'
      exact hs ⟨o, Option.some.inj (ho.symm.trans ho')⟩
    have hdefects : ∀ ds, conditionDefects path operator ds =
        [⟨path.member "operator", .operatorNotText⟩] := by
      cases operator <;> simp_all [conditionDefects]
    rw [hdefects]
    refine .singleton (fun ha => ?_) fun d => ⟨fun hf => ?_, ?_⟩
    · cases ha with
      | condition _ _ ho' => exact hn _ ho'
      | plain _ _ hk => exact hk es rfl keys
    · cases hf with
      | tooDeep h => exact (h hd).elim
      | operator => rfl
      | operand _ _ ho' => exact (hn _ ho').elim
    · rintro rfl
      exact .operator hd keys hn

theorem diagnoses (j : Json) : ∀ (path : Path) (depth : Nat),
    Diagnoses (j.defects limit path depth) (j.Acceptable limit depth)
      (j.FirstDefect limit path depth) := by
  induction j using Json.induction with
  | null | bool _ | number _ | string _ =>
    intro path depth
    by_cases hd : Fits limit depth
    · simp only [defects, if_pos hd]
      exact diagnoses_plain hd (by simp) (by simp)
    · exact diagnoses_of_not_fits hd
  | array js ih =>
    intro path depth
    by_cases hd : Fits limit depth
    · exact diagnoses_array hd ih
    · exact diagnoses_of_not_fits hd
  | object es ih =>
    intro path depth
    by_cases hd : Fits limit depth
    · rw [defects_object hd]
      cases hc : (Json.object es).condition? with
      | none =>
        refine diagnoses_plain hd (fun _ => Json.noConfusion) ?_
        rintro _ ⟨⟩
        exact condition?_eq_none_iff.mp hc
      | some c => exact diagnoses_condition hd hc (ih _ (operand_mem hc) _ _)
    · exact diagnoses_of_not_fits hd

end

end Criteria.Json
