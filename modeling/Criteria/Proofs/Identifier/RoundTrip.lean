import Criteria.Proofs.Identifier.Parts
import Mathlib.Data.Set.Function

/-! Well-formed identifiers and their texts: what is read is what was written. -/
namespace Criteria.Identifier

structure WellFormed (i : Identifier) : Prop where
  nonempty : i.parts ≠ []
  parts : ∀ p ∈ i.parts, p.WellFormed

/-- Parts that others follow. -/
def dotted (ps : List Part) : List Char := ps.flatMap fun p => p.text ++ ['.']

section

variable {cs rest : List Char} {p : Part} {ps : List Part}

theorem nul_not_mem_dotted (h : ∀ p ∈ ps, p.WellFormed) : '\x00' ∉ dotted ps := by
  intro hmem
  obtain ⟨p, hp, hmem⟩ := List.mem_flatMap.mp hmem
  have hnul := (h p hp).nul_not_mem_text
  simp [hnul] at hmem

theorem takeParts_nil (h : takePart cs = .ok (p, [])) : takeParts cs = .ok [p] := by
  rw [takeParts]
  split <;> simp_all

theorem takeParts_dot (h : takePart cs = .ok (p, '.' :: rest)) (hr : rest ≠ []) :
    takeParts cs = (takeParts rest).map (p :: ·) := by
  rw [takeParts]
  split <;> simp_all

theorem takeParts_error {e : Fault} (h : takePart cs = .error e) : takeParts cs = .error e := by
  rw [takeParts]
  split <;> simp_all

/-- After a part only a dot may follow. -/
theorem takeParts_expectedDot {c : Char} (h : takePart cs = .ok (p, c :: rest)) (hc : c ≠ '.') :
    takeParts cs = .error (.expectedDot c) := by
  rw [takeParts]
  split <;> simp_all

/-- After parts that others follow the reading goes on with those. -/
theorem takeParts_dotted (hps : ∀ p ∈ ps, p.WellFormed) (hcs : cs ≠ []) :
    takeParts (dotted ps ++ cs) = (takeParts cs).map (ps ++ ·) := by
  induction ps with
  | nil =>
    rw [dotted, List.flatMap_nil, List.nil_append]
    cases takeParts cs <;> rfl
  | cons p ps ih =>
    obtain ⟨hp, hps⟩ := List.forall_mem_cons.mp hps
    have hcons : dotted (p :: ps) ++ cs = p.text ++ '.' :: (dotted ps ++ cs) := by simp [dotted]
    have hstop : p.StopsBefore ('.' :: (dotted ps ++ cs)) := by
      cases p <;> simp [Part.StopsBefore]
    rw [hcons, takeParts_dot (takePart_append hp hstop) (by simp [hcs]), ih hps]
    cases takeParts cs <;> rfl

theorem takeParts_dotted_text (hps : ∀ p ∈ ps, p.WellFormed) (hp : p.WellFormed) :
    takeParts (dotted ps ++ p.text) = .ok (ps ++ [p]) := by
  have hstop : p.StopsBefore [] := by cases p <;> simp [Part.StopsBefore]
  have htake := takePart_append hp hstop
  rw [List.append_nil] at htake
  rw [takeParts_dotted hps hp.text_ne_nil, takeParts_nil htake]
  rfl

theorem intercalate_text (ps : List Part) (p : Part) :
    ['.'].intercalate ((ps ++ [p]).map Part.text) = dotted ps ++ p.text := by
  induction ps with
  | nil => simp [dotted]
  | cons q ps ih =>
    have hne : (ps ++ [p]).map Part.text ≠ [] := by simp
    rw [List.cons_append, List.map_cons, List.intercalate_cons_of_ne_nil hne, ih]
    simp [dotted]

theorem takeParts_sound (hnul : '\x00' ∉ cs) (h : takeParts cs = .ok ps) :
    ps ≠ [] ∧ (∀ p ∈ ps, p.WellFormed) ∧ cs = ['.'].intercalate (ps.map Part.text) := by
  fun_induction takeParts cs generalizing ps with
  | case1 => cases h
  | case2 cs p hp =>
    cases h
    obtain ⟨rfl, hp, -⟩ := takePart_sound hnul hp
    simp [hp]
  | case3 => cases h
  | case4 => cases h
  | case5 cs p c rest hp hc hr ih =>
    obtain rfl : c = '.' := not_not.mp hc
    obtain ⟨rfl, hwell, -⟩ := takePart_sound hnul hp
    cases hqs : takeParts rest with
    | error e =>
      rw [hqs] at h
      cases h
    | ok qs =>
      rw [hqs] at h
      cases h
      have hrest : '\x00' ∉ rest := fun hmem => hnul (by simp [hmem])
      obtain ⟨hne, hwf, rfl⟩ := ih hrest hqs
      have hmap : qs.map Part.text ≠ [] := by simpa using hne
      refine ⟨List.cons_ne_nil p qs, List.forall_mem_cons.mpr ⟨hwell, hwf⟩, ?_⟩
      rw [List.map_cons, List.intercalate_cons_of_ne_nil hmap]
      simp

end

section

variable {s : String} {i : Identifier}

/-- The last part of an identifier stands apart from those before it. -/
theorem WellFormed.exists_last (h : i.WellFormed) : ∃ ps p, i.parts = ps ++ [p] ∧
    (∀ q ∈ ps, q.WellFormed) ∧ p.WellFormed ∧ i.text.toList = dotted ps ++ p.text := by
  obtain hnil | ⟨ps, p, hparts⟩ := List.eq_nil_or_concat' i.parts
  · exact (h.nonempty hnil).elim
  have hwell := h.parts
  rw [hparts] at hwell
  obtain ⟨hps, hp⟩ := List.forall_mem_append.mp hwell
  refine ⟨ps, p, hparts, hps, hp p List.mem_cons_self, ?_⟩
  rw [text, String.toList_ofList, hparts, intercalate_text]

theorem WellFormed.takeParts_text (h : i.WellFormed) : takeParts i.text.toList = .ok i.parts := by
  obtain ⟨ps, p, hparts, hps, hp, htext⟩ := h.exists_last
  rw [htext, hparts]
  exact takeParts_dotted_text hps hp

theorem WellFormed.nul_not_mem_text (h : i.WellFormed) : '\x00' ∉ i.text.toList := by
  obtain ⟨ps, p, -, hps, hp, htext⟩ := h.exists_last
  rw [htext, List.mem_append, not_or]
  exact ⟨nul_not_mem_dotted hps, hp.nul_not_mem_text⟩

theorem WellFormed.text_last (h : i.WellFormed) :
    ∃ cs c, i.text.toList = cs ++ [c] ∧ c ≠ '.' := by
  obtain ⟨ps, p, -, -, hp, htext⟩ := h.exists_last
  obtain ⟨cs, c, hlast, hc⟩ := hp.text_last
  refine ⟨dotted ps ++ cs, c, ?_, hc⟩
  rw [htext, hlast, List.append_assoc]

theorem WellFormed.parse_text (h : i.WellFormed) : parse i.text = .ok i := by
  have hempty : i.text.isEmpty = false := by
    obtain ⟨cs, c, hlast, -⟩ := h.text_last
    rw [Bool.eq_false_iff, Ne, String.isEmpty_iff, ← String.toList_eq_nil_iff, hlast]
    simp
  have hnul : ¬i.text.toList.contains '\x00' = true := by simpa using h.nul_not_mem_text
  rw [parse, hempty, if_neg Bool.false_ne_true, if_neg hnul, h.takeParts_text]
  rfl

theorem parse_sound (h : parse s = .ok i) : i.WellFormed ∧ i.text = s := by
  rw [parse] at h
  split at h
  · cases h
  split at h
  · cases h
  rename_i hnul
  have hnul : '\x00' ∉ s.toList := by simpa using hnul
  cases hps : takeParts s.toList with
  | error e =>
    rw [hps] at h
    cases h
  | ok ps =>
    rw [hps] at h
    cases h
    obtain ⟨hne, hwf, htext⟩ := takeParts_sound hnul hps
    refine ⟨⟨hne, hwf⟩, ?_⟩
    rw [text, ← htext, String.ofList_toList]

/-- Reading and writing are inverse to each other on the well-formed identifiers. -/
theorem ofString_eq_ok_iff : ofString s = .ok i ↔ i.WellFormed ∧ i.text = s := by
  have hparse : ofString s = .ok i ↔ parse s = .ok i := by
    rw [ofString]
    cases parse s <;> simp [Except.mapError]
  rw [hparse]
  constructor
  · exact parse_sound
  · rintro ⟨h, rfl⟩
    exact h.parse_text

/-- A text is read as the one well-formed identifier that is written so, if there is one. -/
theorem ofString_text_inverse :
    (∀ (s : String) (i : Identifier), ofString s = .ok i ↔ i.WellFormed ∧ i.text = s) ∧
      Set.InjOn text {i | i.WellFormed} := by
  refine ⟨fun s i => ofString_eq_ok_iff, ?_⟩
  intro i hi j hj htext
  have hread : ofString j.text = .ok i := ofString_eq_ok_iff.mpr ⟨hi, htext⟩
  have hread' : ofString j.text = .ok j := ofString_eq_ok_iff.mpr ⟨hj, rfl⟩
  exact Except.ok.inj (hread.symm.trans hread')

end

end Criteria.Identifier
