import Criteria.AllowList
import Criteria.Proofs.Identifier.Grammar
import Mathlib.Data.List.Perm.Subperm
import Mathlib.Data.Set.Card

/-! What an allow-list that is built name by name contains, and which names make a checked one. -/
namespace Criteria

/-- A text that the grammar of identifiers allows. -/
def Identifier.IsText (s : String) : Prop := ∃ pieces parts, Decomposes s.toList pieces parts

theorem Identifier.isText_iff {s : String} : IsText s ↔ ∃ i, ofString s = .ok i := by
  constructor
  · rintro ⟨pieces, parts, h⟩
    exact ⟨⟨parts⟩, ofString_eq_ok_iff_decomposes.mpr ⟨pieces, h⟩⟩
  · rintro ⟨i, hi⟩
    obtain ⟨pieces, h⟩ := ofString_eq_ok_iff_decomposes.mp hi
    exact ⟨pieces, i.parts, h⟩

namespace AllowList

variable {allowed a b : AllowList} {name n : String} {names names' before after : List String}
  {e : Error}

/-- Lists of one size are the same set if one is part of the other. -/
theorem beq_iff : (a == b) = true ↔ ∀ n, n ∈ a ↔ n ∈ b := by
  have hunfold : (a == b) = (a.size == b.size && a.names.all b.contains) := rfl
  rw [hunfold, Bool.and_eq_true_iff, beq_iff_eq, List.all_eq_true]
  constructor
  · rintro ⟨hsize, hall⟩ n
    have hsub : a.names ⊆ b.names := fun m hm => contains_iff.mp (hall m hm)
    have hperm : a.names.Perm b.names :=
      (List.subperm_of_subset a.nodup hsub).perm_of_length_le hsize.ge
    exact hperm.mem_iff
  · intro h
    have hperm : a.names.Perm b.names := (List.perm_ext_iff_of_nodup a.nodup b.nodup).mpr h
    exact ⟨hperm.length_eq, fun n hn => contains_iff.mpr ((h n).mp hn)⟩

theorem contains_congr (h : (a == b) = true) : a.contains = b.contains := by
  funext name
  rw [Bool.eq_iff_iff, contains_iff, contains_iff, beq_iff.mp h]

theorem size_eq_ncard : allowed.size = Set.ncard {n | n ∈ allowed} := by
  have hset : {n | n ∈ allowed} = (allowed.names.toFinset : Set String) := by
    ext n
    simp [Membership.mem]
  rw [hset, Set.ncard_coe_finset, List.toFinset_card_of_nodup allowed.nodup, size]

theorem mem_foldl_insert_iff : n ∈ names.foldl insert allowed ↔ n ∈ allowed ∨ n ∈ names := by
  induction names generalizing allowed with
  | nil => simp
  | cons name names ih =>
    rw [List.foldl_cons, ih, mem_insert_iff, List.mem_cons, or_comm (a := n = name), or_assoc]

theorem mem_ofList_iff : n ∈ ofList names ↔ n ∈ names := by
  rw [ofList, mem_foldl_insert_iff, or_iff_right not_mem_empty]

theorem ofList_append_singleton : ofList (names ++ [name]) = (ofList names).insert name :=
  List.foldl_append

/-- One insertion after the other, with what each of them returns. -/
def addAll (allowed : AllowList) : List String → List Bool × AllowList
  | [] => ([], allowed)
  | name :: names =>
    let (fresh, allowed) := allowed.add name
    let (rest, allowed) := allowed.addAll names
    (fresh :: rest, allowed)

theorem addAll_cons : allowed.addAll (name :: names) =
    ((!allowed.contains name) :: ((allowed.insert name).addAll names).1,
      ((allowed.insert name).addAll names).2) := rfl

theorem addAll_snd : (allowed.addAll names).2 = names.foldl insert allowed := by
  induction names generalizing allowed with
  | nil => rfl
  | cons name names ih => rw [addAll_cons, ih, List.foldl_cons]

theorem length_addAll : (allowed.addAll names).1.length = names.length := by
  induction names generalizing allowed with
  | nil => rfl
  | cons name names ih => rw [addAll_cons, List.length_cons, ih, List.length_cons]

/-- The answer to an insertion depends on the names before it. -/
theorem getElem?_addAll : (allowed.addAll (before ++ name :: after)).1[before.length]? =
    some !(before.foldl insert allowed).contains name := by
  induction before generalizing allowed with
  | nil => rfl
  | cons m before ih =>
    rw [List.cons_append, addAll_cons, List.length_cons, List.getElem?_cons_succ, ih,
      List.foldl_cons]

/-- A run of insertions: only the first of a name that was not there is answered with yes. -/
structure Collects (allowed : AllowList) (names : List String) : Prop where
  contains : ∀ n, (allowed.addAll names).2.contains n = true ↔
    allowed.contains n = true ∨ n ∈ names
  answers : (allowed.addAll names).1.length = names.length
  fresh : ∀ before name after, names = before ++ name :: after →
    ((allowed.addAll names).1[before.length]? = some true ↔
      allowed.contains name = false ∧ name ∉ before)
  size : (allowed.addAll names).2.size = Set.ncard {n | n ∈ allowed ∨ n ∈ names}

theorem collects (allowed : AllowList) (names : List String) : allowed.Collects names := by
  constructor
  · intro n
    rw [addAll_snd, contains_iff, contains_iff, mem_foldl_insert_iff]
  · exact length_addAll
  · rintro before name after rfl
    rw [getElem?_addAll, Option.some_inj, Bool.not_eq_true', ← Bool.not_eq_true, contains_iff,
      mem_foldl_insert_iff, not_or, ← contains_iff, Bool.not_eq_true]
  · rw [addAll_snd, size_eq_ncard]
    simp only [mem_foldl_insert_iff]

/-- A name that is there already is not new. -/
example : ((ofList ["id"]).addAll ["name", "id", "name"]).1 = [true, false, false] := by decide

/-! ## Checked names -/

theorem parse_append_of_ok (h : parse before = .ok allowed) :
    parse (before ++ after) = after.foldlM (fun allowed name =>
      (Identifier.ofString name).map fun _ => allowed.insert name) allowed := by
  rw [parse, List.foldlM_append, ← parse, h]
  rfl

theorem parse_eq_ok (h : ∀ name ∈ names, Identifier.IsText name) :
    parse names = .ok (ofList names) := by
  induction names using List.reverseRecOn with
  | nil => rfl
  | append_singleton names name ih =>
    rw [List.forall_mem_append, List.forall_mem_singleton] at h
    obtain ⟨hnames, hname⟩ := h
    obtain ⟨i, hi⟩ := Identifier.isText_iff.mp hname
    rw [parse_append_of_ok (ih hnames), ofList_append_singleton, List.foldlM_cons, hi]
    rfl

/-- Nothing after the first name that is none is looked at. -/
theorem parse_eq_error (h : ∀ m ∈ before, Identifier.IsText m)
    (hname : Identifier.ofString name = .error e) :
    parse (before ++ name :: after) = .error e := by
  rw [parse_append_of_ok (parse_eq_ok h), List.foldlM_cons, hname]
  rfl

/-- The names are all texts of the grammar, or there is a first that is none. -/
theorem forall_isText_or_exists_first (names : List String) :
    (∀ name ∈ names, Identifier.IsText name) ∨ ∃ before name after e,
      names = before ++ name :: after ∧ (∀ m ∈ before, Identifier.IsText m) ∧
        Identifier.ofString name = .error e := by
  induction names with
  | nil => exact .inl (by simp)
  | cons name names ih =>
    cases hname : Identifier.ofString name with
    | error e => exact .inr ⟨[], name, names, e, rfl, by simp, hname⟩
    | ok i =>
      have htext : Identifier.IsText name := Identifier.isText_iff.mpr ⟨i, hname⟩
      rcases ih with hall | ⟨before, m, after, e, rfl, hbefore, hm⟩
      · exact .inl (List.forall_mem_cons.mpr ⟨htext, hall⟩)
      · exact .inr ⟨name :: before, m, after, e, rfl, List.forall_mem_cons.mpr ⟨htext, hbefore⟩, hm⟩

theorem parse_eq_error_iff : parse names = .error e ↔ ∃ before name after,
    names = before ++ name :: after ∧ (∀ m ∈ before, Identifier.IsText m) ∧
      Identifier.ofString name = .error e := by
  constructor
  · intro h
    rcases forall_isText_or_exists_first names with hall | ⟨before, name, after, e', rfl, hb, hname⟩
    · rw [parse_eq_ok hall] at h
      cases h
    · rw [parse_eq_error hb hname] at h
      cases h
      exact ⟨before, name, after, rfl, hb, hname⟩
  · rintro ⟨before, name, after, rfl, hb, hname⟩
    exact parse_eq_error hb hname

theorem exists_parse_eq_ok_iff :
    (∃ allowed, parse names = .ok allowed) ↔ ∀ name ∈ names, Identifier.IsText name := by
  constructor
  · rintro ⟨allowed, hok⟩
    rcases forall_isText_or_exists_first names with hall | ⟨before, name, after, e, rfl, hb, hname⟩
    · exact hall
    · rw [parse_eq_error hb hname] at hok
      cases hok
  · intro h
    exact ⟨_, parse_eq_ok h⟩

theorem exists_parse_eq_error_iff :
    (∃ e, parse names = .error e) ↔ ¬∀ name ∈ names, Identifier.IsText name := by
  rw [← exists_parse_eq_ok_iff]
  cases parse names <;> simp

/-- Names that must be identifiers: the first that is none is the error, and apart from that their
order and repetitions do not matter. -/
structure Checks (names names' : List String) : Prop where
  ok : ∀ allowed, parse names = .ok allowed → (allowed == ofList names) = true
  ok_iff : (∃ allowed, parse names = .ok allowed) ↔ ∀ name ∈ names, Identifier.IsText name
  error_iff : ∀ e, parse names = .error e ↔ ∃ before name after,
    names = before ++ name :: after ∧ (∀ m ∈ before, Identifier.IsText m) ∧
      Identifier.ofString name = .error e
  same : (∀ n, n ∈ names ↔ n ∈ names') →
    (∃ e e', parse names = .error e ∧ parse names' = .error e') ∨
      ∃ a b, parse names = .ok a ∧ parse names' = .ok b ∧ (a == b) = true

theorem checks (names names' : List String) : Checks names names' := by
  constructor
  · intro allowed h
    have hall : ∀ name ∈ names, Identifier.IsText name := exists_parse_eq_ok_iff.mp ⟨_, h⟩
    cases h.symm.trans (parse_eq_ok hall)
    exact beq_iff.mpr fun _ => Iff.rfl
  · exact exists_parse_eq_ok_iff
  · intro e
    exact parse_eq_error_iff
  · intro h
    by_cases hall : ∀ name ∈ names, Identifier.IsText name
    · have hall' : ∀ name ∈ names', Identifier.IsText name := fun n hn => hall n ((h n).mpr hn)
      refine .inr ⟨_, _, parse_eq_ok hall, parse_eq_ok hall', beq_iff.mpr fun n => ?_⟩
      rw [mem_ofList_iff, mem_ofList_iff, h]
    · have hall' : ¬∀ name ∈ names', Identifier.IsText name :=
        fun h' => hall fun n hn => h' n ((h n).mp hn)
      obtain ⟨e, he⟩ := exists_parse_eq_error_iff.mpr hall
      obtain ⟨e', he'⟩ := exists_parse_eq_error_iff.mpr hall'
      exact .inl ⟨e, e', he, he'⟩

/-- An allow-list is the set of its names, however it is made. -/
theorem checks_and_collects (allowed : AllowList) (names names' : List String) :
    Checks names names' ∧ allowed.Collects names :=
  ⟨checks names names', collects allowed names⟩

end AllowList

end Criteria
