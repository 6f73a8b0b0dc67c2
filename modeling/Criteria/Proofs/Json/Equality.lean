import Criteria.Proofs.Json.Basic
import Criteria.Proofs.Numeric.Equality
import Mathlib.Data.List.Forall2
import Mathlib.Data.List.Perm.Subperm

/-! Equality of JSON values, which looks into objects by key. -/
namespace Criteria

section

variable {α : Type} {R : α → α → Prop} {as bs cs : List α}

theorem beq_iff_forall₂ [BEq α] :
    (as == bs) = true ↔ List.Forall₂ (· == ·) as bs := by
  induction as generalizing bs with
  | nil => cases bs <;> simp
  | cons a as ih =>
    cases bs with
    | nil => simp
    | cons b bs => rw [List.cons_beq_cons, Bool.and_eq_true, ih, List.forall₂_cons]

/-- What is equal to the same things as another is so within a list too. -/
theorem append_cons_beq_congr [BEq α] {a b : α} (h : ∀ c, (a == c) = (b == c))
    (as bs cs : List α) : (as ++ a :: bs == cs) = (as ++ b :: bs == cs) := by
  induction as generalizing cs with
  | nil =>
    cases cs with
    | nil => rfl
    | cons c cs => rw [List.nil_append, List.nil_append, List.cons_beq_cons, List.cons_beq_cons, h]
  | cons a as ih =>
    cases cs with
    | nil => rfl
    | cons c cs =>
      rw [List.cons_append, List.cons_append, List.cons_beq_cons, List.cons_beq_cons, ih]

/-- What is symmetric on the items of a list is symmetric on the list. -/
theorem forall₂_symm (h : List.Forall₂ R as bs) (hR : ∀ a ∈ as, ∀ b, R a b → R b a) :
    List.Forall₂ R bs as := by
  have hand : List.Forall₂ (fun a b => (∀ c, R a c → R c a) ∧ R a b) as bs :=
    (List.forall₂_and_left as bs).mpr ⟨hR, h⟩
  exact (hand.imp fun a b hab => hab.1 b hab.2).flip

theorem forall₂_trans (hab : List.Forall₂ R as bs) (hbc : List.Forall₂ R bs cs)
    (hR : ∀ a ∈ as, ∀ b c, R a b → R b c → R a c) : List.Forall₂ R as cs := by
  induction hab generalizing cs with
  | nil =>
    cases hbc
    exact .nil
  | cons hab _ ih =>
    cases hbc with
    | cons hbc hbcs =>
      obtain ⟨ha, has⟩ := List.forall_mem_cons.mp hR
      exact .cons (ha _ _ hab hbc) (ih hbcs has)

/-- What passes from each item to those that it is related to. -/
theorem forall_mem_of_forall₂ {P : α → Prop} (h : List.Forall₂ R as bs)
    (hR : ∀ a ∈ as, ∀ b, R a b → P b) : ∀ b ∈ bs, P b := by
  induction h with
  | nil => simp
  | cons hab _ ih =>
    obtain ⟨ha, has⟩ := List.forall_mem_cons.mp hR
    exact List.forall_mem_cons.mpr ⟨ha _ hab, ih has⟩

end

namespace Json

theorem Number.beq_iff {m n : Number} : (m == n) = true ↔
    m = n ∨ ∃ x y hx hy, (x == y) = true ∧ m = .float x hx ∧ n = .float y hy := by
  have hequal : (m == n) = m.equal n := rfl
  have hself : ∀ x : Binary64, x.isFinite = true → (x == x) = true :=
    fun x hx => Binary64.beq_self_iff.mpr (Binary64.isNaN_eq_false hx)
  rw [hequal]
  cases m with
  | int m hm => cases n <;> simp [Number.equal]
  | float x hx =>
    cases n with
    | int n hn => simp [Number.equal]
    | float y hy =>
      constructor
      · intro h
        exact .inr ⟨x, y, hx, hy, h, rfl, rfl⟩
      · rintro (h | ⟨_, _, _, _, h, ⟨⟩, ⟨⟩⟩)
        · cases h
          exact hself x hx
        · exact h

instance : EquivBEq Number where
  symm {m n} h := by
    obtain rfl | ⟨x, y, hx, hy, hxy, rfl, rfl⟩ := Number.beq_iff.mp h
    · exact h
    · exact Number.beq_iff.mpr (.inr ⟨y, x, hy, hx, BEq.symm hxy, rfl, rfl⟩)
  trans {m n o} hmn hno := by
    obtain rfl | ⟨x, y, hx, hy, hxy, rfl, rfl⟩ := Number.beq_iff.mp hmn
    · exact hno
    · obtain rfl | ⟨_, z, -, hz, hyz, ⟨⟩, rfl⟩ := Number.beq_iff.mp hno
      · exact hmn
      · exact Number.beq_iff.mpr (.inr ⟨x, z, hx, hz, PartialEquivBEq.trans hxy hyz, rfl, rfl⟩)
  rfl {m} := Number.beq_iff.mpr (.inl rfl)

/-- What it takes for two values to be equal, one layer deep. -/
inductive Matches : Json → Json → Prop where
  | null : Matches .null .null
  | bool (b : Bool) : Matches (.bool b) (.bool b)
  | number {m n : Number} (h : (m == n) = true) : Matches (.number m) (.number n)
  | string (s : String) : Matches (.string s) (.string s)
  | array {is js : List Json} (h : List.Forall₂ (· == ·) is js) :
      Matches (.array is) (.array js)
  | object {es fs : Entries Json} (length : es.length = fs.length)
      (h : ∀ e ∈ es, ∃ j, fs.get? e.1 = some j ∧ (e.2 == j) = true) :
      Matches (.object es) (.object fs)

theorem equalItems_iff {is js : List Json} :
    equalItems is js = true ↔ List.Forall₂ (· == ·) is js := by
  induction is generalizing js with
  | nil => cases js <;> simp [equalItems]
  | cons i is ih =>
    cases js with
    | nil => simp [equalItems]
    | cons j js =>
      rw [equalItems, Bool.and_eq_true, ih, List.forall₂_cons]
      rfl

theorem subsumed_iff {es fs : Entries Json} : subsumed es fs = true ↔
    ∀ e ∈ es, ∃ j, fs.get? e.1 = some j ∧ (e.2 == j) = true := by
  induction es with
  | nil => simp [subsumed]
  | cons e es ih =>
    rw [subsumed, Bool.and_eq_true, ih, List.forall_mem_cons]
    refine and_congr_left' ?_
    cases fs.get? e.1 with
    | none => simp
    | some j =>
      simp only [Option.some.injEq, exists_eq_left']
      rfl

theorem beq_iff_matches {i j : Json} : (i == j) = true ↔ Matches i j := by
  have hequal : (i == j) = equal i j := rfl
  rw [hequal]
  constructor
  · fun_cases equal i j with
    | case1 =>
      intro _
      exact .null
    | case2 | case4 =>
      intro h
      cases eq_of_beq h
      constructor
    | case3 m n =>
      intro h
      exact .number h
    | case5 is js =>
      intro h
      exact .array (equalItems_iff.mp h)
    | case6 es fs =>
      intro h
      obtain ⟨hlength, hvalues⟩ := Bool.and_eq_true_iff.mp h
      exact .object (eq_of_beq hlength) (subsumed_iff.mp hvalues)
    | case7 =>
      intro h
      cases h
  · intro h
    cases h with
    | null => rfl
    | bool | string => exact BEq.rfl
    | number h => exact h
    | array hitems => exact equalItems_iff.mpr hitems
    | object hlength hvalues =>
      exact Bool.and_eq_true_iff.mpr ⟨beq_iff_eq.mpr hlength, subsumed_iff.mpr hvalues⟩

variable {i j k : Json} {es fs : Entries Json}

theorem beq_trans (hij : (i == j) = true) (hjk : (j == k) = true) : (i == k) = true := by
  induction i using Json.induction generalizing j k with
  | null | bool _ | string _ =>
    cases beq_iff_matches.mp hij
    exact hjk
  | number m =>
    cases beq_iff_matches.mp hij with
    | number hmn =>
      cases beq_iff_matches.mp hjk with
      | number hno => exact beq_iff_matches.mpr (.number (PartialEquivBEq.trans hmn hno))
  | array is ih =>
    cases beq_iff_matches.mp hij with
    | array hitems =>
      cases beq_iff_matches.mp hjk with
      | array hitems' => exact beq_iff_matches.mpr (.array (forall₂_trans hitems hitems' ih))
  | object es ih =>
    cases beq_iff_matches.mp hij with
    | object hlength hvalues =>
      cases beq_iff_matches.mp hjk with
      | object hlength' hvalues' =>
        refine beq_iff_matches.mpr (.object (hlength.trans hlength') fun e he => ?_)
        obtain ⟨j, hj, hej⟩ := hvalues e he
        obtain ⟨k, hk, hjk⟩ := hvalues' _ (Entries.mem_of_get? hj)
        exact ⟨k, hk, ih e he hej hjk⟩

/-- Equal objects have the same keys: those of the one are found in the other, which has no room
for more. -/
theorem perm_keys_of_beq (h : (object es == object fs) = true) (hes : es.keys.Nodup) :
    es.keys.Perm fs.keys := by
  cases beq_iff_matches.mp h with
  | object hlength h =>
    have hsub : es.keys ⊆ fs.keys := by
      intro key hkey
      obtain ⟨e, he, rfl⟩ := List.mem_map.mp hkey
      obtain ⟨j, hj, -⟩ := h e he
      exact Entries.mem_keys_of_mem (Entries.mem_of_get? hj)
    refine (List.subperm_of_subset hes hsub).perm_of_length_le ?_
    simp [Entries.keys, hlength]

theorem exists_mem_of_beq (h : (object es == object fs) = true) (hes : es.keys.Nodup)
    {f : String × Json} (hf : f ∈ fs) : ∃ e ∈ es, e.1 = f.1 ∧ (e.2 == f.2) = true := by
  have hkeys := perm_keys_of_beq h hes
  have hfs : fs.keys.Nodup := hkeys.nodup_iff.mp hes
  obtain ⟨e, he, hkey⟩ := List.mem_map.mp (hkeys.mem_iff.mpr (Entries.mem_keys_of_mem hf))
  cases beq_iff_matches.mp h with
  | object _ h =>
    obtain ⟨j, hj, hej⟩ := h e he
    have hfj : fs.get? f.1 = some f.2 := (Entries.get?_eq_some_iff_mem hfs).mpr hf
    rw [← hkey, hj] at hfj
    cases hfj
    exact ⟨e, he, hkey, hej⟩

namespace WellFormed

theorem of_beq (hi : i.WellFormed) (h : (i == j) = true) : j.WellFormed := by
  induction i using Json.induction generalizing j with
  | null | bool _ | number _ | string _ =>
    cases beq_iff_matches.mp h
    trivial
  | array is ih =>
    rw [wellFormed_array_iff] at hi
    cases beq_iff_matches.mp h with
    | array hitems =>
      exact wellFormed_array_iff.mpr
        (forall_mem_of_forall₂ hitems fun i hmem j => ih i hmem (hi i hmem))
  | object es ih =>
    obtain ⟨hes, hvalues⟩ := wellFormed_object_iff.mp hi
    cases beq_iff_matches.mp h with
    | object =>
      refine wellFormed_object_iff.mpr
        ⟨(perm_keys_of_beq h hes).nodup_iff.mp hes, fun f hf => ?_⟩
      obtain ⟨e, he, -, hef⟩ := exists_mem_of_beq h hes hf
      exact ih e he (hvalues e he) hef

theorem beq_symm (hi : i.WellFormed) (h : (i == j) = true) : (j == i) = true := by
  induction i using Json.induction generalizing j with
  | null | bool _ | string _ =>
    cases beq_iff_matches.mp h
    exact h
  | number m =>
    cases beq_iff_matches.mp h with
    | number h => exact beq_iff_matches.mpr (.number (BEq.symm h))
  | array is ih =>
    rw [wellFormed_array_iff] at hi
    cases beq_iff_matches.mp h with
    | array hitems =>
      have hsymm := forall₂_symm hitems fun i hmem j => ih i hmem (hi i hmem)
      exact beq_iff_matches.mpr (.array hsymm)
  | object es ih =>
    obtain ⟨hes, hvalues⟩ := wellFormed_object_iff.mp hi
    cases beq_iff_matches.mp h with
    | object hlength =>
      refine beq_iff_matches.mpr (.object hlength.symm fun f hf => ?_)
      obtain ⟨e, he, hkey, hef⟩ := exists_mem_of_beq h hes hf
      refine ⟨e.2, ?_, ih e he (hvalues e he) hef⟩
      rw [← hkey]
      exact (Entries.get?_eq_some_iff_mem hes).mpr he

theorem beq_self (hi : i.WellFormed) : (i == i) = true := by
  rw [beq_iff_matches]
  induction i using Json.induction with
  | null | bool _ | string _ => constructor
  | number n => exact .number BEq.rfl
  | array is ih =>
    rw [wellFormed_array_iff] at hi
    refine .array (List.forall₂_same.mpr fun i hmem => ?_)
    exact beq_iff_matches.mpr (ih i hmem (hi i hmem))
  | object es ih =>
    obtain ⟨hes, hvalues⟩ := wellFormed_object_iff.mp hi
    refine .object rfl fun e he => ⟨e.2, (Entries.get?_eq_some_iff_mem hes).mpr he, ?_⟩
    exact beq_iff_matches.mpr (ih e he (hvalues e he))

end WellFormed

/-- The same data in another spelling: the entries of objects in another order, and zeros with
another sign, at any depth. -/
inductive Respelled : Json → Json → Prop where
  | refl (j : Json) : Respelled j j
  | trans {i j k : Json} (hij : Respelled i j) (hjk : Respelled j k) : Respelled i k
  | zero {x y : Binary64} (hx : x.isZero = true) (hy : y.isZero = true)
      (finite : x.isFinite = true) (finite' : y.isFinite = true) :
      Respelled (.number (.float x finite)) (.number (.float y finite'))
  | entries {es fs : Entries Json} (h : es.Perm fs) : Respelled (.object es) (.object fs)
  | value {es fs : Entries Json} {key : String} {i j : Json} (h : Respelled i j) :
      Respelled (.object (es ++ (key, i) :: fs)) (.object (es ++ (key, j) :: fs))
  | item {is js : List Json} {i j : Json} (h : Respelled i j) :
      Respelled (.array (is ++ i :: js)) (.array (is ++ j :: js))

/-- Equality does not see the spelling. -/
theorem Respelled.beq (h : Respelled i j) (hi : i.WellFormed) : (i == j) = true := by
  induction h with
  | refl j => exact hi.beq_self
  | trans _ _ ih ih' =>
    have hij := ih hi
    exact beq_trans hij (ih' (hi.of_beq hij))
  | zero hx hy =>
    exact beq_iff_matches.mpr
      (.number (Number.beq_iff.mpr (.inr ⟨_, _, _, _, Binary64.beq_of_isZero hx hy, rfl, rfl⟩)))
  | @entries es fs h =>
    obtain ⟨hes, hvalues⟩ := wellFormed_object_iff.mp hi
    refine beq_iff_matches.mpr (.object h.length_eq fun e he => ⟨e.2, ?_, (hvalues e he).beq_self⟩)
    rw [← Entries.get?_perm h hes]
    exact (Entries.get?_eq_some_iff_mem hes).mpr he
  | @value es fs key i j h ih =>
    obtain ⟨hes, hvalues⟩ := wellFormed_object_iff.mp hi
    have hkeys : (es ++ (key, j) :: fs).keys = (es ++ (key, i) :: fs).keys := by
      simp [Entries.keys]
    rw [← hkeys] at hes
    refine beq_iff_matches.mpr (.object (by simp) fun e he => ?_)
    simp only [Entries.get?_eq_some_iff_mem hes]
    have hself : (e.2 == e.2) = true := (hvalues e he).beq_self
    rcases List.mem_append.mp he with hmem | hmem
    · exact ⟨e.2, List.mem_append_left _ hmem, hself⟩
    · rcases List.mem_cons.mp hmem with rfl | hmem
      · exact ⟨j, by simp, ih (hvalues _ he)⟩
      · exact ⟨e.2, by simp [hmem], hself⟩
  | @item is js i j h ih =>
    rw [wellFormed_array_iff, List.forall_mem_append, List.forall_mem_cons] at hi
    obtain ⟨his, hi, hjs⟩ := hi
    have hself : ∀ ks : List Json, (∀ k ∈ ks, k.WellFormed) →
        List.Forall₂ (· == ·) ks ks :=
      fun ks hks => List.forall₂_same.mpr fun k hk => (hks k hk).beq_self
    exact beq_iff_matches.mpr (.array (List.rel_append (hself is his) (.cons (ih hi) (hself js hjs))))

end Json

end Criteria
