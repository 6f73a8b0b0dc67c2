import Criteria.Proofs.Value.Basic
import Criteria.Value.Shape
import Mathlib.Data.List.Basic

/-! What makes a list a membership test, and what the order of its items has to do with it. -/
namespace Criteria

/-- The items are of one kind, and the first is neither a comparison nor a list. -/
def IsMembership (vs : List Value) : Prop :=
  (∀ v ∈ vs, ∀ w ∈ vs, v.kind = w.kind) ∧
    ∀ v ∈ vs.head?, v.isComparison = false ∧ v.isList = false

theorem Shape.ofList?_eq_membership_iff {vs : List Value} :
    ofList? vs = some .membership ↔ vs ≠ [] ∧ IsMembership vs := by
  cases vs with
  | nil => simp [ofList?]
  | cons v vs =>
    have hkind : (∀ w ∈ v :: vs, ∀ x ∈ v :: vs, w.kind = x.kind) ↔ ∀ w ∈ vs, w.kind = v.kind := by
      constructor
      · intro h w hw
        exact h w (List.mem_cons_of_mem _ hw) v List.mem_cons_self
      · intro h
        have hv : ∀ w ∈ v :: vs, w.kind = v.kind := List.forall_mem_cons.mpr ⟨rfl, h⟩
        intro w hw x hx
        exact (hv w hw).trans (hv x hx).symm
    rw [ofList?, IsMembership, hkind]
    simp [and_assoc]

theorem Shape.ofList?_eq_conjunction_iff {vs : List Value} :
    ofList? vs = some .conjunction ↔ vs ≠ [] ∧ ¬IsMembership vs := by
  have hmembership := @ofList?_eq_membership_iff vs
  have hnone := @ofList?_eq_none_iff vs
  cases hs : ofList? vs with
  | none => simp [hnone.mp hs]
  | some shape => cases shape <;> simp_all

/-- Objects and comparisons and nothing else, and at least one of each. -/
structure MixesObjects (vs : List Value) : Prop where
  only : ∀ v ∈ vs, (∃ es, v = .object es) ∨ ∃ o w, v = .comparison o w
  object : ∃ es, .object es ∈ vs
  comparison : ∃ o w, .comparison o w ∈ vs

variable {vs ws : List Value} {n : Nat}

theorem isMembership_congr (hmem : ∀ v, v ∈ vs ↔ v ∈ ws) (hhead : vs.head? = ws.head?) :
    IsMembership vs ↔ IsMembership ws := by
  simp only [IsMembership, hmem, hhead]

theorem IsMembership.of_append (h : IsMembership (vs ++ ws)) (hvs : vs ≠ []) : IsMembership vs := by
  obtain ⟨hkind, hfirst⟩ := h
  rw [List.head?_append_of_ne_nil vs hvs] at hfirst
  refine ⟨fun v hv w hw => ?_, hfirst⟩
  exact hkind v (List.mem_append_left ws hv) w (List.mem_append_left ws hw)

/-- Only among objects can the first item be of another form than one that takes its place. -/
theorem IsMembership.perm (h : IsMembership vs) (hp : vs.Perm ws) (hm : ¬MixesObjects vs) :
    IsMembership ws := by
  obtain ⟨hkind, hfirst⟩ := h
  constructor
  · simpa only [hp.mem_iff] using hkind
  · intro w hw
    have hw : w ∈ vs := hp.mem_iff.mpr (List.mem_of_mem_head? hw)
    obtain ⟨v, rest, rfl⟩ := List.exists_cons_of_ne_nil (List.ne_nil_of_mem hw)
    obtain ⟨hc, hl⟩ := hfirst v rfl
    have hsame : ∀ x ∈ v :: rest, x.kind = v.kind := fun x hx => hkind x hx v List.mem_cons_self
    constructor
    · by_contra hcomparison
      obtain ⟨o, operand, rfl⟩ : ∃ o operand, w = .comparison o operand := by
        cases w <;> simp_all [Value.isComparison]
      have hv : v.kind = .object := (hsame _ hw).symm
      obtain ⟨es, rfl⟩ : ∃ es, v = .object es := by
        rcases Value.kind_eq_object_iff.mp hv with hes | ⟨_, _, rfl⟩
        · exact hes
        · cases hc
      refine hm ⟨fun x hx => ?_, ⟨es, List.mem_cons_self⟩, o, operand, hw⟩
      exact Value.kind_eq_object_iff.mp ((hsame x hx).trans hv)
    · rw [Bool.eq_false_iff, Ne, ← Value.kind_eq_list_iff] at hl ⊢
      rwa [hsame w hw]

/-- Nothing else of the values matters. -/
theorem isMembership_iff_kinds : IsMembership vs ↔
    (∀ k ∈ vs.map Value.kind, ∀ l ∈ vs.map Value.kind, k = l) ∧
      (vs.map Value.kind).head? ≠ some .list ∧ vs.head?.any Value.isComparison = false := by
  rw [IsMembership, List.head?_map]
  cases vs with
  | nil => simp
  | cons v vs => simp [Value.kind_eq_list_iff, and_comm]

theorem exists_perm_cons_of_mem {v : Value} (hv : v ∈ vs) : ∃ rest, vs.Perm (v :: rest) := by
  obtain ⟨before, after, rfl⟩ := List.append_of_mem hv
  exact ⟨before ++ after, List.perm_middle⟩

namespace MixesObjects

theorem perm (h : MixesObjects vs) (hp : vs.Perm ws) : MixesObjects ws := by
  obtain ⟨honly, hobject, hcomparison⟩ := h
  simp only [hp.mem_iff] at honly hobject hcomparison
  exact ⟨honly, hobject, hcomparison⟩

theorem ne_nil (h : MixesObjects vs) : vs ≠ [] := by
  obtain ⟨es, hes⟩ := h.object
  exact List.ne_nil_of_mem hes

theorem isMembership_iff (h : MixesObjects vs) :
    IsMembership vs ↔ ∃ es, vs.head? = some (.object es) := by
  have hkind : ∀ v ∈ vs, v.kind = .object := fun v hv => Value.kind_eq_object_iff.mpr (h.only v hv)
  obtain ⟨v, rest, rfl⟩ := List.exists_cons_of_ne_nil h.ne_nil
  constructor
  · rintro ⟨-, hfirst⟩
    rcases h.only v List.mem_cons_self with ⟨es, rfl⟩ | ⟨o, w, rfl⟩
    · exact ⟨es, rfl⟩
    · cases (hfirst _ rfl).1
  · rintro ⟨es, hes⟩
    cases hes
    refine ⟨fun v hv w hw => (hkind v hv).trans (hkind w hw).symm, ?_⟩
    rintro _ ⟨⟩
    exact ⟨rfl, rfl⟩

end MixesObjects

namespace Shape

theorem ofList?_congr (hnil : vs = [] ↔ ws = []) (h : IsMembership vs ↔ IsMembership ws) :
    ofList? vs = ofList? ws := by
  refine Option.ext fun shape => ?_
  cases shape with
  | membership => rw [ofList?_eq_membership_iff, ofList?_eq_membership_iff, Ne, hnil, h]
  | conjunction => rw [ofList?_eq_conjunction_iff, ofList?_eq_conjunction_iff, Ne, hnil, h]

theorem ofList?_eq_of_kinds (hkind : vs.map Value.kind = ws.map Value.kind)
    (hfirst : vs.head?.any Value.isComparison = ws.head?.any Value.isComparison) :
    ofList? vs = ofList? ws := by
  refine ofList?_congr ?_ ?_
  · rw [← List.map_eq_nil_iff, hkind, List.map_eq_nil_iff]
  · rw [isMembership_iff_kinds, hkind, hfirst, ← isMembership_iff_kinds]

theorem ofList?_perm (hp : vs.Perm ws) (h : IsMembership vs ↔ IsMembership ws) :
    ofList? vs = ofList? ws :=
  ofList?_congr (by rw [← List.length_eq_zero_iff, hp.length_eq, List.length_eq_zero_iff]) h

theorem ofList?_eq_membership_iff_of_mixesObjects (h : MixesObjects vs) :
    ofList? vs = some .membership ↔ ∃ es, vs.head? = some (.object es) := by
  rw [ofList?_eq_membership_iff, and_iff_right h.ne_nil, h.isMembership_iff]

/-- Either an object or a comparison can be put first. -/
theorem exists_perm_ne (h : MixesObjects vs) : ∃ ws, vs.Perm ws ∧ ofList? vs ≠ ofList? ws := by
  obtain ⟨es, hes⟩ := h.object
  obtain ⟨o, w, hw⟩ := h.comparison
  obtain ⟨rest, hp⟩ := exists_perm_cons_of_mem hes
  obtain ⟨rest', hp'⟩ := exists_perm_cons_of_mem hw
  have hobject := ofList?_eq_membership_iff_of_mixesObjects (h.perm hp)
  have hcomparison := ofList?_eq_membership_iff_of_mixesObjects (h.perm hp')
  simp only [List.head?_cons, Option.some.injEq, Value.object.injEq, exists_eq', iff_true,
    reduceCtorEq, exists_false, iff_false] at hobject hcomparison
  by_cases hvs : ofList? vs = some .membership
  · exact ⟨_, hp', fun heq => hcomparison (heq.symm.trans hvs)⟩
  · exact ⟨_, hp, fun heq => hvs (heq.trans hobject)⟩

theorem forall_perm_iff :
    (∀ ws, vs.Perm ws → ofList? vs = ofList? ws) ↔ ¬MixesObjects vs := by
  constructor
  · intro h hm
    obtain ⟨ws, hp, hne⟩ := exists_perm_ne hm
    exact hne (h ws hp)
  · intro hm ws hp
    have hm' : ¬MixesObjects ws := fun h => hm (h.perm hp.symm)
    exact ofList?_perm hp ⟨fun h => h.perm hp hm, fun h => h.perm hp.symm hm'⟩

theorem ofList?_replicate (hn : n ≠ 0) : ofList? (List.replicate n vs).flatten = ofList? vs := by
  have hmem : ∀ v, v ∈ (List.replicate n vs).flatten ↔ v ∈ vs := by simp [hn]
  refine ofList?_congr ?_ (isMembership_congr hmem (List.head?_flatten_replicate hn vs))
  simp only [List.eq_nil_iff_forall_not_mem, hmem]

theorem ofList?_append (hvs : ofList? vs = some .conjunction) :
    ofList? (vs ++ ws) = some .conjunction := by
  rw [ofList?_eq_conjunction_iff] at hvs ⊢
  obtain ⟨hne, hvs⟩ := hvs
  exact ⟨List.append_ne_nil_of_left_ne_nil hne ws, fun h => hvs (h.of_append hne)⟩

theorem ofList?_prefix (hws : ofList? ws = some .membership) (hp : vs <+: ws) (hvs : vs ≠ []) :
    ofList? vs = some .membership := by
  obtain ⟨rest, rfl⟩ := hp
  exact ofList?_eq_membership_iff.mpr ⟨hvs, (ofList?_eq_membership_iff.mp hws).2.of_append hvs⟩

/-- How the meanings of lists are related. -/
structure Laws : Prop where
  append : ∀ vs ws, ofList? vs = some .conjunction → ofList? (vs ++ ws) = some .conjunction
  ofPrefix : ∀ vs ws, ofList? ws = some .membership → vs <+: ws → vs ≠ [] →
    ofList? vs = some .membership
  perm : ∀ vs, (∀ ws, vs.Perm ws → ofList? vs = ofList? ws) ↔ ¬MixesObjects vs
  mixed : ∀ vs, MixesObjects vs →
    (ofList? vs = some .membership ↔ ∃ es, vs.head? = some (.object es))
  repeated : ∀ vs n, n ≠ 0 → ofList? (List.replicate n vs).flatten = ofList? vs
  kinds : ∀ vs ws, vs.map Value.kind = ws.map Value.kind →
    vs.head?.any Value.isComparison = ws.head?.any Value.isComparison → ofList? vs = ofList? ws

theorem ofList?_laws : Laws := by
  constructor
  · intro vs ws
    exact ofList?_append
  · intro vs ws
    exact ofList?_prefix
  · intro vs
    exact forall_perm_iff
  · intro vs
    exact ofList?_eq_membership_iff_of_mixesObjects
  · intro vs n
    exact ofList?_replicate
  · intro vs ws
    exact ofList?_eq_of_kinds

/-- Numbers of both forms are of one kind, and a list of lists is never a membership test. -/
example : ofList? [.int 1, .float (.ofMagnitude false 0)] = some .membership ∧
    ofList? [.list [], .list []] = some .conjunction := by decide

end Shape

end Criteria
