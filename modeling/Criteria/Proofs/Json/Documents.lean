import Criteria.Proofs.Json.Defects
import Criteria.Proofs.Json.Diagnosis

/-! The grammar of orders and of whole documents, and where a document leaves it first. -/
namespace Criteria.Json

/-- An object with a textual column. Its direction may be missing, null or a text. -/
inductive IsOrderTerm : Json → Prop where
  | intro {es : Entries Json} {c : String} (column : es.get? "column" = some (.string c))
      (direction : ∀ d ∈ es.get? "direction", d = .null ∨ ∃ s, d = .string s) :
      IsOrderTerm (.object es)

inductive IsOrder : Json → Prop where
  | null : IsOrder .null
  | name (s : String) : IsOrder (.string s)
  | term {j : Json} (h : IsOrderTerm j) : IsOrder j
  | terms {js : List Json} (h : ∀ j ∈ js, IsOrderTerm j) : IsOrder (.array js)

/-- The column of a term comes before its direction. -/
inductive FirstTermDefect (path : Path) : Json → Defect → Prop where
  | notTerm {j : Json} (h : ∀ es, j = .object es → Entries.get? "column" es = none) :
      FirstTermDefect path j ⟨path, .termWithoutColumn⟩
  | column {es : Entries Json} {c : Json} (column : es.get? "column" = some c)
      (h : ∀ s, c ≠ .string s) :
      FirstTermDefect path (.object es) ⟨path.member "column", .columnNotText⟩
  | direction {es : Entries Json} {c : String} {d : Json}
      (column : es.get? "column" = some (.string c)) (direction : es.get? "direction" = some d)
      (null : d ≠ .null) (h : ∀ s, d ≠ .string s) :
      FirstTermDefect path (.object es) ⟨path.member "direction", .directionNotText⟩

inductive FirstOrderDefect (path : Path) : Json → Defect → Prop where
  | notOrder {j : Json} (null : j ≠ .null) (name : ∀ s, j ≠ .string s)
      (terms : ∀ js, j ≠ .array js)
      (term : ∀ es, j = .object es → Entries.get? "column" es = none) :
      FirstOrderDefect path j ⟨path, .orderNotUnderstood⟩
  | term {es : Entries Json} {d : Defect} (column : es.get? "column" ≠ none)
      (h : FirstTermDefect path (.object es) d) : FirstOrderDefect path (.object es) d
  | item {before after : List Json} {j : Json} {d : Defect}
      (accepted : ∀ x ∈ before, IsOrderTerm x)
      (h : FirstTermDefect (path.item before.length) j d) :
      FirstOrderDefect path (.array (before ++ j :: after)) d

section

variable {path : Path}

theorem diagnoses_direction {es : Entries Json} {c : String}
    (hc : es.get? "column" = some (.string c)) :
    Diagnoses ((Json.object es).termDefects path) (IsOrderTerm (.object es))
      (FirstTermDefect path (.object es)) := by
  by_cases ht : ∀ d ∈ es.get? "direction", d = .null ∨ ∃ s, d = .string s
  · have hds : (Json.object es).termDefects path = [] := by
      rw [termDefects, hc]
      cases hd : es.get? "direction" with
      | none => rfl
      | some d => obtain rfl | ⟨s, rfl⟩ := ht d hd <;> rfl
    rw [hds]
    refine .nil (.intro hc ht) fun d hf => ?_
    cases hf with
    | notTerm h => simp [h es rfl] at hc
    | column hc' h => exact h c (Option.some.inj (hc'.symm.trans hc))
    | direction _ hd hn h => exact (ht _ hd).elim hn fun ⟨s, hs⟩ => h s hs
  · push Not at ht
    obtain ⟨d, hd, hn, hs⟩ := ht
    have hds : (Json.object es).termDefects path =
        [⟨path.member "direction", .directionNotText⟩] := by
      rw [termDefects, hc, Option.mem_def.mp hd]
      cases d <;> simp_all
    rw [hds]
    refine .singleton ?_ fun e => ⟨?_, ?_⟩
    · rintro ⟨-, h⟩
      exact (h d hd).elim hn fun ⟨s, h⟩ => hs s h
    · intro hf
      cases hf with
      | notTerm h => simp [h es rfl] at hc
      | column hc' h => exact (h c (Option.some.inj (hc'.symm.trans hc))).elim
      | direction => rfl
    · rintro rfl
      exact .direction hc hd hn hs

theorem diagnoses_column {es : Entries Json} {c : Json} (hc : es.get? "column" = some c)
    (hs : ∀ s, c ≠ .string s) :
    Diagnoses ((Json.object es).termDefects path) (IsOrderTerm (.object es))
      (FirstTermDefect path (.object es)) := by
  have hds : (Json.object es).termDefects path = [⟨path.member "column", .columnNotText⟩] := by
    rw [termDefects, hc]
    cases c <;> simp_all
  rw [hds]
  refine .singleton ?_ fun d => ⟨?_, ?_⟩
  · rintro ⟨hc', -⟩
    exact hs _ (Option.some.inj (hc.symm.trans hc'))
  · intro hf
    cases hf with
    | notTerm h => simp [h es rfl] at hc
    | column => rfl
    | direction hc' => exact (hs _ (Option.some.inj (hc.symm.trans hc'))).elim
  · rintro rfl
    exact .column hc hs

theorem diagnoses_notTerm {j : Json}
    (h : ∀ es, j = .object es → Entries.get? "column" es = none) :
    Diagnoses (j.termDefects path) j.IsOrderTerm (FirstTermDefect path j) := by
  have hds : j.termDefects path = [⟨path, .termWithoutColumn⟩] := by
    cases j with
    | object es => rw [termDefects, h es rfl]
    | _ => rfl
  rw [hds]
  refine .singleton ?_ fun d => ⟨?_, ?_⟩
  · rintro ⟨hc, -⟩
    simp [h _ rfl] at hc
  · intro hf
    cases hf with
    | notTerm => rfl
    | column hc | direction hc => simp [h _ rfl] at hc
  · rintro rfl
    exact .notTerm h

theorem diagnoses_term (j : Json) :
    Diagnoses (j.termDefects path) j.IsOrderTerm (FirstTermDefect path j) := by
  by_cases hj : ∃ es c, j = .object es ∧ Entries.get? "column" es = some c
  · obtain ⟨es, c, rfl, hc⟩ := hj
    by_cases hs : ∃ s, c = .string s
    · obtain ⟨s, rfl⟩ := hs
      exact diagnoses_direction hc
    · exact diagnoses_column hc (not_exists.mp hs)
  · refine diagnoses_notTerm fun es he => Option.eq_none_iff_forall_ne_some.mpr fun c hc => ?_
    exact hj ⟨es, c, he, hc⟩

theorem diagnoses_notOrder {j : Json} (null : j ≠ .null) (name : ∀ s, j ≠ .string s)
    (terms : ∀ js, j ≠ .array js)
    (term : ∀ es, j = .object es → Entries.get? "column" es = none) :
    Diagnoses (j.orderDefects path) j.IsOrder (FirstOrderDefect path j) := by
  have hds : j.orderDefects path = [⟨path, .orderNotUnderstood⟩] := by
    cases j with
    | object es => rw [orderDefects, if_pos (term es rfl)]
    | _ => simp_all [orderDefects]
  rw [hds]
  refine .singleton ?_ fun d => ⟨?_, ?_⟩
  · intro h
    cases h with
    | null => exact null rfl
    | name s => exact name s rfl
    | term h =>
      obtain ⟨hc, -⟩ := h
      simp [term _ rfl] at hc
    | terms => exact terms _ rfl
  · intro hf
    cases hf with
    | notOrder => rfl
    | term hc => exact (hc (term _ rfl)).elim
    | item => exact (terms _ rfl).elim
  · rintro rfl
    exact .notOrder null name terms term

theorem diagnoses_order (j : Json) :
    Diagnoses (j.orderDefects path) j.IsOrder (FirstOrderDefect path j) := by
  cases j with
  | null =>
    refine .nil .null fun d hf => ?_
    cases hf with
    | notOrder null => exact null rfl
  | string s =>
    refine .nil (.name s) fun d hf => ?_
    cases hf with
    | notOrder _ name => exact name s rfl
  | array js =>
    refine (Diagnoses.zipIdx (fun j _ i => @diagnoses_term (path.item i) j) 0).congr ?_ ?_
    · constructor
      · exact .terms
      · intro h
        cases h with
        | term h => cases h
        | terms h => exact h
    · intro d
      constructor
      · rintro ⟨before, j, after, rfl, hb, hf⟩
        rw [Nat.zero_add] at hf
        exact .item hb hf
      · intro hf
        cases hf with
        | notOrder _ _ terms => exact (terms js rfl).elim
        | item hb hf => exact ⟨_, _, _, rfl, hb, by rwa [Nat.zero_add]⟩
  | object es =>
    by_cases hc : Entries.get? "column" es = none
    · exact diagnoses_notOrder (by simp) (by simp) (by simp) (by rintro _ ⟨⟩; exact hc)
    · rw [orderDefects, if_neg hc]
      refine (diagnoses_term (.object es)).congr ⟨.term, fun h => ?_⟩ fun d => ⟨.term hc, ?_⟩
      · cases h with
        | term h => exact h
      · intro hf
        cases hf with
        | notOrder _ _ _ term => exact (hc (term es rfl)).elim
        | term _ hf => exact hf
  | _ => exact diagnoses_notOrder (by simp) (by simp) (by simp) (by simp)

end

section

variable (accepted : String × Json → Prop)

/-- Null or an object all of whose entries are accepted. -/
inductive RootAccepted : Json → Prop where
  | null : RootAccepted .null
  | object {es : List (String × Json)} (h : ∀ e ∈ es, accepted e) : RootAccepted (.object es)

inductive FirstRootDefect (base : Option Path) (first : String × Json → Defect → Prop) :
    Json → Defect → Prop where
  | notObject {j : Json} (null : j ≠ .null) (object : ∀ es, j ≠ .object es) :
      FirstRootDefect base first j ⟨base.getD .root, .notObject⟩
  | entry {before after : List (String × Json)} {e : String × Json} {d : Defect}
      (ok : ∀ x ∈ before, accepted x) (h : first e d) :
      FirstRootDefect base first (.object (before ++ e :: after)) d

variable {accepted} {base : Option Path} {first : String × Json → Defect → Prop}
  {entry : String × Json → List Defect}

theorem diagnoses_root (h : ∀ e, Diagnoses (entry e) (accepted e) (first e)) (j : Json) :
    Diagnoses (j.rootDefects base entry) (RootAccepted accepted j)
      (FirstRootDefect accepted base first j) := by
  cases j with
  | null =>
    refine .nil .null fun d hf => ?_
    cases hf with
    | notObject null => exact null rfl
  | object es =>
    refine (Diagnoses.flatMap h es).congr ⟨.object, fun ha => ?_⟩ fun d => ⟨?_, fun hf => ?_⟩
    · cases ha with
      | object ha => exact ha
    · rintro ⟨before, e, after, rfl, hb, hf⟩
      exact .entry hb hf
    · cases hf with
      | notObject _ object => exact (object es rfl).elim
      | entry hb hf => exact ⟨_, _, _, rfl, hb, hf⟩
  | _ =>
    refine .singleton (fun h => nomatch h) fun d => ⟨?_, ?_⟩
    · rintro ⟨⟩
      rfl
    · rintro rfl
      exact .notObject (by simp) (by simp)

end

end Criteria.Json
