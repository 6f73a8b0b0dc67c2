import Criteria.Identifier.Parser
import Mathlib.Data.List.Basic

/-! Well-formed parts of identifiers, and how one of them is read. -/
namespace Criteria.Identifier

/-- A letter from A to Z in either case, or an underscore. -/
def StartChar (c : Char) : Prop := 'A' ≤ c ∧ c ≤ 'Z' ∨ 'a' ≤ c ∧ c ≤ 'z' ∨ c = '_'

def FollowChar (c : Char) : Prop := StartChar c ∨ '0' ≤ c ∧ c ≤ '9' ∨ c = '$'

/-- A name that can stand without quotes. -/
def PlainName : List Char → Prop
  | [] => False
  | c :: cs => StartChar c ∧ ∀ d ∈ cs, FollowChar d

namespace Part

def WellFormed : Part → Prop
  | plain name => PlainName name.toList
  | quoted name => name.toList ≠ [] ∧ '\x00' ∉ name.toList

/-- What can come after a part without being taken for more of it. -/
def StopsBefore : Part → List Char → Prop
  | plain _, rest => ∀ c ∈ rest.head?, c = '.'
  | quoted _, rest => ∀ c ∈ rest.head?, c ≠ '"'

end Part

section

variable {c : Char} {cs ds name rest : List Char} {valid : Char → Bool} {p : Part} {ps : List Part}

theorem isAlpha_iff : c.isAlpha = true ↔ 'A' ≤ c ∧ c ≤ 'Z' ∨ 'a' ≤ c ∧ c ≤ 'z' := by
  have hupper : c.isUpper = true ↔ 'A' ≤ c ∧ c ≤ 'Z' := decide_eq_true_iff
  have hlower : c.isLower = true ↔ 'a' ≤ c ∧ c ≤ 'z' := by
    change (decide ('a' ≤ c) && decide (c ≤ 'z')) = true ↔ _
    rw [Bool.and_eq_true, decide_eq_true_iff, decide_eq_true_iff]
  change (c.isUpper || c.isLower) = true ↔ _
  rw [Bool.or_eq_true, hupper, hlower]

theorem isStart_iff : isStart c = true ↔ StartChar c := by
  rw [isStart, StartChar, Bool.or_eq_true, decide_eq_true_iff, isAlpha_iff]
  tauto

theorem isFollow_iff : isFollow c = true ↔ FollowChar c := by
  have hdigit : c.isDigit = true ↔ '0' ≤ c ∧ c ≤ '9' := by
    change (decide ('0' ≤ c) && decide (c ≤ '9')) = true ↔ _
    rw [Bool.and_eq_true, decide_eq_true_iff, decide_eq_true_iff]
  have halphanum : c.isAlphanum = true ↔ c.isAlpha = true ∨ c.isDigit = true :=
    Bool.or_eq_true_iff
  rw [isFollow, FollowChar, StartChar, Bool.or_eq_true, Bool.or_eq_true, decide_eq_true_iff,
    decide_eq_true_iff, halphanum, isAlpha_iff, hdigit]
  tauto

theorem StartChar.ne (h : StartChar c) : c ≠ '.' ∧ c ≠ '"' ∧ c ≠ '\x00' := by
  have hc := isStart_iff.mpr h
  refine ⟨?_, ?_, ?_⟩ <;> rintro rfl <;> cases hc

theorem FollowChar.ne (h : FollowChar c) : c ≠ '.' ∧ c ≠ '"' ∧ c ≠ '\x00' := by
  have hc := isFollow_iff.mpr h
  refine ⟨?_, ?_, ?_⟩ <;> rintro rfl <;> cases hc

theorem PlainName.ne (h : PlainName name) (hc : c ∈ name) : c ≠ '.' ∧ c ≠ '"' ∧ c ≠ '\x00' := by
  cases name with
  | nil => cases hc
  | cons d ds =>
    rcases List.mem_cons.mp hc with rfl | hc
    · exact h.1.ne
    · exact (h.2 c hc).ne

/-- Taking a plain name splits the text at a dot or at its end. -/
theorem takePlain_sound (h : takePlain valid cs = .ok (name, rest)) : cs = name ++ rest ∧
    (∀ c ∈ name.head?, valid c = true) ∧ (∀ c ∈ name.tail, isFollow c = true) ∧
      ∀ c ∈ rest.head?, c = '.' := by
  fun_induction takePlain valid cs generalizing name rest with
  | case1 =>
    cases h
    simp
  | case2 =>
    cases h
    simp_all
  | case3 valid c cs _ hv n r hr ih =>
    cases h
    obtain ⟨rfl, hhead, htail, hrest⟩ := ih hr
    refine ⟨rfl, by simpa using hv, ?_, hrest⟩
    cases n with
    | nil => simp
    | cons d ds => exact List.forall_mem_cons.mpr ⟨hhead d rfl, htail⟩
  | case4 | case5 => cases h

theorem takePlain_follow (h : ∀ c ∈ name, FollowChar c) : takePlain isFollow (name ++ rest) =
    (takePlain isFollow rest).map fun r => (name ++ r.1, r.2) := by
  induction name with
  | nil =>
    rw [List.nil_append]
    cases takePlain isFollow rest <;> rfl
  | cons c cs ih =>
    obtain ⟨hc, hcs⟩ := List.forall_mem_cons.mp h
    rw [List.cons_append, takePlain, if_neg hc.ne.1, if_pos (isFollow_iff.mpr hc), ih hcs]
    cases takePlain isFollow rest <;> rfl

theorem takePlain_append (h : PlainName name) : takePlain isStart (name ++ rest) =
    (takePlain isFollow rest).map fun r => (name ++ r.1, r.2) := by
  cases name with
  | nil => cases h
  | cons c cs =>
    obtain ⟨hc, hcs⟩ := h
    rw [List.cons_append, takePlain, if_neg hc.ne.1, if_pos (isStart_iff.mpr hc),
      takePlain_follow hcs]
    cases takePlain isFollow rest <;> rfl

/-- Taking a quoted name undoes the doubling of its quotes. -/
theorem takeQuoted_sound (h : takeQuoted cs = some (name, rest)) :
    cs = name.flatMap escape ++ '"' :: rest ∧ ∀ c ∈ rest.head?, c ≠ '"' := by
  fun_induction takeQuoted cs generalizing name rest with
  | case1 => cases h
  | case2 cs ih =>
    obtain ⟨⟨n, r⟩, hr, he⟩ := Option.map_eq_some_iff.mp h
    obtain ⟨rfl, hrest⟩ := ih hr
    cases he
    exact ⟨by simp [escape], hrest⟩
  | case3 cs hcs =>
    cases h
    refine ⟨rfl, ?_⟩
    rintro _ hc rfl
    obtain ⟨tail, rfl⟩ := List.head?_eq_some_iff.mp hc
    exact hcs tail rfl rfl
  | case4 c cs _ hc ih =>
    obtain ⟨⟨n, r⟩, hr, he⟩ := Option.map_eq_some_iff.mp h
    obtain ⟨rfl, hrest⟩ := ih hr
    cases he
    exact ⟨by simp [escape, hc], hrest⟩

theorem takeQuoted_append (h : ∀ c ∈ rest.head?, c ≠ '"') :
    takeQuoted (name.flatMap escape ++ '"' :: rest) = some (name, rest) := by
  induction name with
  | nil =>
    cases rest with
    | nil => rfl
    | cons d ds =>
      have hd : d ≠ '"' := h d rfl
      simp [takeQuoted, hd]
  | cons c cs ih =>
    by_cases hc : c = '"'
    · subst c
      simp [escape, takeQuoted, ih]
    · simp [escape, hc, takeQuoted, ih]

theorem takePart_plain (h : PlainName name) : takePart (name ++ rest) =
    (takePlain isFollow rest).map fun r => (.plain (String.ofList (name ++ r.1)), r.2) := by
  have happend := @takePlain_append name rest h
  unfold takePart
  split
  · rename_i cs hcs
    cases name with
    | nil => cases h
    | cons c name =>
      rw [List.cons_append, List.cons.injEq] at hcs
      exact (h.1.ne.2.1 hcs.1).elim
  · rw [happend]
    cases takePlain isFollow rest with
    | error e => rfl
    | ok r =>
      cases name with
      | nil => cases h
      | cons c name => rfl

theorem takePart_append (h : p.WellFormed) (hs : p.StopsBefore rest) :
    takePart (p.text ++ rest) = .ok (p, rest) := by
  cases p with
  | plain name =>
    have hrest : takePlain isFollow rest = .ok ([], rest) := by
      cases rest with
      | nil => rfl
      | cons c cs => rw [takePlain, if_pos (hs c rfl)]
    rw [Part.text, takePart_plain h, hrest]
    simp [Except.map]
  | quoted name =>
    have htext : (Part.quoted name).text ++ rest =
        '"' :: (name.toList.flatMap escape ++ '"' :: rest) := by
      simp [Part.text]
    obtain ⟨c, cs, hname⟩ := List.exists_cons_of_ne_nil h.1
    rw [htext, takePart, takeQuoted_append hs, hname]
    simp only [← hname, String.ofList_toList]

/-- Dots between quotes belong to the name. -/
example : takePart "\"a.\".b".toList = .ok (.quoted "a.", ".b".toList) := rfl

theorem takePart_sound (hnul : '\x00' ∉ cs) (h : takePart cs = .ok (p, rest)) :
    cs = p.text ++ rest ∧ p.WellFormed ∧ p.StopsBefore rest := by
  unfold takePart at h
  split at h
  · split at h
    · cases h
    · cases h
    · rename_i cs name _ hne hq
      cases h
      obtain ⟨rfl, hstop⟩ := takeQuoted_sound hq
      have hname : name ≠ [] := by
        rintro rfl
        exact hne rfl
      have hnul' : '\x00' ∉ name := by
        intro hmem
        have hescape : '\x00' ∈ name.flatMap escape := List.mem_flatMap.mpr ⟨_, hmem, by decide⟩
        exact hnul (List.mem_cons_of_mem _ (List.mem_append_left _ hescape))
      simpa [Part.text, Part.WellFormed] using ⟨⟨hname, hnul'⟩, hstop⟩
  · split at h
    · cases h
    · cases h
    · rename_i name _ hne hp
      cases h
      obtain ⟨rfl, hhead, htail, hstop⟩ := takePlain_sound hp
      cases name with
      | nil => exact (hne rfl).elim
      | cons c cs =>
        have hc : StartChar c := isStart_iff.mp (hhead c rfl)
        have hcs : ∀ d ∈ cs, FollowChar d := fun d hd => isFollow_iff.mp (htail d hd)
        simpa [Part.text, Part.WellFormed] using ⟨⟨hc, hcs⟩, hstop⟩

theorem Part.WellFormed.text_ne_nil (h : p.WellFormed) : p.text ≠ [] := by
  cases p with
  | plain name =>
    intro hname
    rw [text] at hname
    rw [WellFormed, hname] at h
    exact h
  | quoted name => simp [text]

theorem Part.WellFormed.nul_not_mem_text (h : p.WellFormed) : '\x00' ∉ p.text := by
  cases p with
  | plain name =>
    intro hmem
    exact (PlainName.ne h hmem).2.2 rfl
  | quoted name =>
    have hescape : '\x00' ∉ name.toList.flatMap escape := by
      intro hmem
      obtain ⟨c, hc, hmem⟩ := List.mem_flatMap.mp hmem
      rw [escape] at hmem
      split at hmem
      · simp at hmem
      · obtain rfl := List.mem_singleton.mp hmem
        exact h.2 hc
    simpa [text] using hescape

theorem Part.WellFormed.text_last (h : p.WellFormed) : ∃ cs c, p.text = cs ++ [c] ∧ c ≠ '.' := by
  cases p with
  | plain name =>
    obtain hnil | ⟨cs, c, hname⟩ := List.eq_nil_or_concat' name.toList
    · exact (h.text_ne_nil hnil).elim
    · have hc : c ∈ name.toList := by simp [hname]
      exact ⟨cs, c, hname, (PlainName.ne h hc).1⟩
  | quoted name => exact ⟨_, '"', rfl, by decide⟩

end

end Criteria.Identifier
