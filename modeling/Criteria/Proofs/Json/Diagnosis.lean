import Criteria.Defect
import Mathlib.Data.List.Basic

/-! Which defect is the first. -/
namespace Criteria

/-- There are no defects in what is `accepted`, and otherwise the `first` of them comes first. -/
structure Diagnoses (ds : List Defect) (accepted : Prop) (first : Defect → Prop) : Prop where
  nil_iff : ds = [] ↔ accepted
  head?_iff : ∀ d, ds.head? = some d ↔ first d

namespace Diagnoses

variable {ds es : List Defect} {d : Defect} {p q : Prop} {f g : Defect → Prop}

theorem congr (h : Diagnoses ds p f) (hp : p ↔ q) (hf : ∀ d, f d ↔ g d) : Diagnoses ds q g :=
  ⟨h.nil_iff.trans hp, fun d => (h.head?_iff d).trans (hf d)⟩

theorem of_head? (h : Diagnoses ds p f) (hd : es.head? = ds.head?) : Diagnoses es p f := by
  constructor
  · rw [← List.head?_eq_none_iff, hd, List.head?_eq_none_iff, h.nil_iff]
  · intro d
    rw [hd, h.head?_iff]

theorem nil (hp : p) (hf : ∀ d, ¬f d) : Diagnoses [] p f :=
  ⟨iff_of_true rfl hp, fun d => iff_of_false (Option.some_ne_none d).symm (hf d)⟩

theorem singleton (hp : ¬p) (hf : ∀ e, f e ↔ e = d) : Diagnoses [d] p f := by
  refine ⟨iff_of_false (List.cons_ne_nil d []) hp, fun e => ?_⟩
  rw [hf, List.head?_cons, Option.some.injEq, eq_comm]

theorem append (hd : Diagnoses ds p f) (he : Diagnoses es q g) :
    Diagnoses (ds ++ es) (p ∧ q) fun d => f d ∨ p ∧ g d := by
  constructor
  · rw [List.append_eq_nil_iff, hd.nil_iff, he.nil_iff]
  · intro d
    rw [List.head?_append, Option.or_eq_some_iff, List.head?_eq_none_iff, hd.nil_iff,
      hd.head?_iff, he.head?_iff]

section

variable {α : Type} {P : α → Prop} {as : List α}

/-- In a list the first defect lies in an item all before which are accepted. -/
theorem zipIdx {D : α → Nat → List Defect} {F : α → Nat → Defect → Prop}
    (h : ∀ a ∈ as, ∀ i, Diagnoses (D a i) (P a) (F a i)) (i : Nat) :
    Diagnoses ((as.zipIdx i).flatMap fun e => D e.1 e.2) (∀ a ∈ as, P a) fun d =>
      ∃ before a after, as = before ++ a :: after ∧ (∀ x ∈ before, P x) ∧
        F a (i + before.length) d := by
  induction as generalizing i with
  | nil => exact .nil (by simp) (by simp)
  | cons a as ih =>
    have ha := h a List.mem_cons_self i
    have has := ih (fun a ha => h a (List.mem_cons_of_mem _ ha)) (i + 1)
    have hi : ∀ n, i + (n + 1) = i + 1 + n := by omega
    rw [List.zipIdx_cons, List.flatMap_cons]
    refine (ha.append has).congr List.forall_mem_cons.symm fun d => ?_
    constructor
    · rintro (hf | ⟨hp, before, b, after, rfl, hb, hf⟩)
      · exact ⟨[], a, as, rfl, by simp, hf⟩
      · refine ⟨a :: before, b, after, rfl, List.forall_mem_cons.mpr ⟨hp, hb⟩, ?_⟩
        rw [List.length_cons, hi]
        exact hf
    · rintro ⟨before, b, after, heq, hb, hf⟩
      cases before with
      | nil =>
        obtain ⟨rfl, rfl⟩ := List.cons.inj heq
        exact .inl hf
      | cons c before =>
        obtain ⟨rfl, rfl⟩ := List.cons.inj heq
        obtain ⟨hc, hb⟩ := List.forall_mem_cons.mp hb
        rw [List.length_cons, hi] at hf
        exact .inr ⟨hc, before, b, after, rfl, hb, hf⟩

theorem flatMap {D : α → List Defect} {F : α → Defect → Prop}
    (h : ∀ a, Diagnoses (D a) (P a) (F a)) (as : List α) :
    Diagnoses (as.flatMap D) (∀ a ∈ as, P a) fun d =>
      ∃ before a after, as = before ++ a :: after ∧ (∀ x ∈ before, P x) ∧ F a d := by
  have hD : (as.zipIdx.flatMap fun e => D e.1) = as.flatMap D := by
    rw [← List.flatMap_map, List.zipIdx_map_fst]
  rw [← hD]
  exact zipIdx (fun a _ _ => h a) 0

end

end Diagnoses

end Criteria
