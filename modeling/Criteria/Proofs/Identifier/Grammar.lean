import Criteria.Proofs.Identifier.RoundTrip
import Mathlib.Data.List.Forall2

/-! The grammar of identifiers, and that it is all that is read. -/
namespace Criteria.Identifier

/-- What stands between the quotes, and the name that it says: a quote of the name is doubled. -/
inductive QuotedAs : List Char → List Char → Prop where
  | nil : QuotedAs [] []
  | char {c : Char} {cs name : List Char} (quote : c ≠ '"') (nul : c ≠ '\x00')
      (h : QuotedAs cs name) : QuotedAs (c :: cs) (c :: name)
  | quote {cs name : List Char} (h : QuotedAs cs name) : QuotedAs ('"' :: '"' :: cs) ('"' :: name)

/-- A piece of text that is a part. -/
inductive Part.Written : List Char → Part → Prop where
  | plain {c : Char} {cs : List Char} (start : StartChar c) (follow : ∀ d ∈ cs, FollowChar d) :
      Written (c :: cs) (.plain (String.ofList (c :: cs)))
  | quoted {cs name : List Char} (nonempty : cs ≠ []) (h : QuotedAs cs name) :
      Written ('"' :: cs ++ ['"']) (.quoted (String.ofList name))

/-- A text cut into pieces at single dots, with the part that each piece is. -/
structure Decomposes (cs : List Char) (pieces : List (List Char)) (parts : List Part) : Prop where
  nonempty : pieces ≠ []
  joined : cs = ['.'].intercalate pieces
  written : List.Forall₂ Part.Written pieces parts

/-- The beginning of a text after which a part is due. -/
inductive Opens : List Char → Prop where
  | start : Opens []
  | dot {cs : List Char} {pieces : List (List Char)} {parts : List Part}
      (h : Decomposes cs pieces parts) : Opens (cs ++ ['.'])

/-- Ways in which a text fails to be an identifier. -/
inductive Irregular : List Char → Prop where
  | nul {cs : List Char} (h : '\x00' ∈ cs) : Irregular cs
  /-- The first dot of a text, or one right after another. -/
  | dot {cs : List Char} (h : Opens cs) (ds : List Char) : Irregular (cs ++ '.' :: ds)
  | trailingDot (cs : List Char) : Irregular (cs ++ ['.'])
  | emptyQuoted {cs ds : List Char} (h : Opens cs) (hds : ds.head? ≠ some '"') :
      Irregular (cs ++ '"' :: '"' :: ds)
  | afterQuoted {cs piece : List Char} {name : String} {c : Char} (h : Opens cs)
      (written : Part.Written piece (.quoted name)) (dot : c ≠ '.') (quote : c ≠ '"')
      (ds : List Char) : Irregular (cs ++ (piece ++ c :: ds))
  | quoteInPlain {cs piece : List Char} {name : String} (h : Opens cs)
      (written : Part.Written piece (.plain name)) (ds : List Char) :
      Irregular (cs ++ (piece ++ '"' :: ds))

section

variable {cs ds name piece : List Char} {pieces : List (List Char)} {p : Part} {parts : List Part}
  {s : String} {i : Identifier}

theorem quotedAs_iff : QuotedAs cs name ↔ cs = name.flatMap escape ∧ '\x00' ∉ name := by
  constructor
  · intro h
    induction h with
    | nil => simp
    | char hq hn _ ih =>
      obtain ⟨rfl, hnul⟩ := ih
      exact ⟨by simp [escape, hq], by simp [hnul, hn.symm]⟩
    | quote _ ih =>
      obtain ⟨rfl, hnul⟩ := ih
      exact ⟨by simp [escape], by simp [hnul]⟩
  · rintro ⟨rfl, hnul⟩
    induction name with
    | nil => exact .nil
    | cons c name ih =>
      obtain ⟨hc, hname⟩ := not_or.mp (mt List.mem_cons.mpr hnul)
      by_cases hq : c = '"'
      · subst c
        exact .quote (ih hname)
      · have hcons : (c :: name).flatMap escape = c :: name.flatMap escape := by simp [escape, hq]
        rw [hcons]
        exact .char hq (Ne.symm hc) (ih hname)

/-- The grammar writes a part as its text. -/
theorem Part.written_iff : Written piece p ↔ p.WellFormed ∧ piece = p.text := by
  constructor
  · intro h
    cases h with
    | plain start follow =>
      rw [WellFormed, text, String.toList_ofList]
      exact ⟨⟨start, follow⟩, rfl⟩
    | quoted hne h =>
      obtain ⟨rfl, hnul⟩ := quotedAs_iff.mp h
      rw [WellFormed, text, String.toList_ofList]
      refine ⟨⟨?_, hnul⟩, rfl⟩
      rintro rfl
      exact hne rfl
  · rintro ⟨h, rfl⟩
    cases p with
    | plain name =>
      obtain ⟨cs, rfl⟩ : ∃ cs, name = String.ofList cs := ⟨_, String.ofList_toList.symm⟩
      rw [WellFormed, String.toList_ofList] at h
      rw [text, String.toList_ofList]
      cases cs with
      | nil => cases h
      | cons c cs => exact .plain h.1 h.2
    | quoted name =>
      obtain ⟨cs, rfl⟩ : ∃ cs, name = String.ofList cs := ⟨_, String.ofList_toList.symm⟩
      rw [WellFormed, String.toList_ofList] at h
      obtain ⟨hne, hnul⟩ := h
      rw [text, String.toList_ofList]
      refine .quoted ?_ (quotedAs_iff.mpr ⟨rfl, hnul⟩)
      cases cs with
      | nil => exact (hne rfl).elim
      | cons c cs => by_cases hc : c = '"' <;> simp [escape, hc]

theorem forall₂_written_iff : List.Forall₂ Part.Written pieces parts ↔
    (∀ p ∈ parts, p.WellFormed) ∧ pieces = parts.map Part.text := by
  induction parts generalizing pieces with
  | nil => simp
  | cons p parts ih =>
    rw [List.forall₂_cons_right_iff, List.forall_mem_cons, List.map_cons]
    constructor
    · rintro ⟨piece, rest, hp, hrest, rfl⟩
      obtain ⟨hwell, rfl⟩ := Part.written_iff.mp hp
      obtain ⟨hparts, rfl⟩ := ih.mp hrest
      exact ⟨⟨hwell, hparts⟩, rfl⟩
    · rintro ⟨⟨hp, hparts⟩, rfl⟩
      exact ⟨_, _, Part.written_iff.mpr ⟨hp, rfl⟩, ih.mpr ⟨hparts, rfl⟩, rfl⟩

/-- A text is cut into the texts of the parts that it is read as, and in no other way. -/
theorem decomposes_iff : Decomposes cs pieces parts ↔ (Identifier.mk parts).WellFormed ∧
    pieces = parts.map Part.text ∧ cs = (Identifier.mk parts).text.toList := by
  constructor
  · rintro ⟨hne, rfl, hwritten⟩
    obtain ⟨hparts, rfl⟩ := forall₂_written_iff.mp hwritten
    refine ⟨⟨?_, hparts⟩, rfl, ?_⟩
    · rintro rfl
      exact hne rfl
    · rw [text, String.toList_ofList]
  · rintro ⟨⟨hne, hparts⟩, rfl, rfl⟩
    refine ⟨?_, ?_, forall₂_written_iff.mpr ⟨hparts, rfl⟩⟩
    · simpa using hne
    · rw [text, String.toList_ofList]

theorem ofString_eq_ok_iff_decomposes :
    ofString s = .ok i ↔ ∃ pieces, Decomposes s.toList pieces i.parts := by
  rw [ofString_eq_ok_iff]
  constructor
  · rintro ⟨h, rfl⟩
    exact ⟨_, decomposes_iff.mpr ⟨h, rfl, rfl⟩⟩
  · rintro ⟨pieces, h⟩
    obtain ⟨hwell, -, htext⟩ := decomposes_iff.mp h
    exact ⟨hwell, (String.toList_inj.mp htext).symm⟩

theorem Opens.exists_dotted (h : Opens cs) : ∃ ps, (∀ p ∈ ps, p.WellFormed) ∧ cs = dotted ps := by
  cases h with
  | start => exact ⟨[], by simp, rfl⟩
  | dot h =>
    obtain ⟨hwell, -, rfl⟩ := decomposes_iff.mp h
    obtain ⟨ps, p, hparts, -, -, htext⟩ := hwell.exists_last
    refine ⟨_, hwell.parts, ?_⟩
    rw [htext, hparts]
    simp [dotted]

/-- What is not read where a part is due is not read after other parts either. -/
theorem Opens.takeParts_error {e : Fault} (h : Opens cs) (hds : ds ≠ [])
    (herror : takeParts ds = .error e) : takeParts (cs ++ ds) = .error e := by
  obtain ⟨ps, hps, rfl⟩ := h.exists_dotted
  rw [takeParts_dotted hps hds, herror]
  rfl

/-- No identifier is written irregularly. -/
theorem Irregular.text_ne (h : Irregular cs) (hi : i.WellFormed) : i.text.toList ≠ cs := by
  have htake := hi.takeParts_text
  rintro rfl
  -- an early fault is met by the reading of the parts, and the other two are seen in the text
  have hfault : ∀ e, takeParts i.text.toList ≠ .error e := by simp [htake]
  generalize htext : i.text.toList = cs at h hfault
  cases h with
  | nul hmem =>
    rw [← htext] at hmem
    exact hi.nul_not_mem_text hmem
  | dot hopens ds =>
    have hpart : takePart ('.' :: ds) = .error .emptySegment := rfl
    exact hfault _ (hopens.takeParts_error (by simp) (takeParts_error hpart))
  | trailingDot cs =>
    obtain ⟨ds, c, hlast, hc⟩ := hi.text_last
    have happend := hlast.symm.trans htext
    exact hc (by simpa using (List.append_inj' happend rfl).2)
  | @emptyQuoted _ ds hopens hds =>
    have hstop : ∀ c ∈ ds.head?, c ≠ '"' := by
      rintro _ hc rfl
      exact hds hc
    have hquoted : takeQuoted ('"' :: ds) = some ([], ds) :=
      @takeQuoted_append [] ds hstop
    have hpart : takePart ('"' :: '"' :: ds) = .error .emptyQuoted := by
      rw [takePart, hquoted]
    exact hfault _ (hopens.takeParts_error (by simp) (takeParts_error hpart))
  | @afterQuoted _ _ name c hopens written dot quote ds =>
    obtain ⟨hwell, rfl⟩ := Part.written_iff.mp written
    have hstop : Part.StopsBefore (.quoted name) (c :: ds) := by
      simpa [Part.StopsBefore] using quote
    have hpart := takePart_append hwell hstop
    exact hfault _ (hopens.takeParts_error (by simp) (takeParts_expectedDot hpart dot))
  | @quoteInPlain _ _ name hopens written ds =>
    obtain ⟨hwell, rfl⟩ := Part.written_iff.mp written
    have hpart : takePart (Part.text (.plain name) ++ '"' :: ds) = .error (.invalid '"') :=
      takePart_plain hwell
    exact hfault _ (hopens.takeParts_error (by simp) (takeParts_error hpart))

/-- Not an identifier, with a fault for the reason. -/
def Refused (s : String) : Prop := ∃ fault : Fault, ofString s = .error (.invalid fault.text)

theorem refused_iff : Refused s ↔ ∀ i, ofString s ≠ .ok i := by
  rw [Refused, ofString]
  cases parse s <;> simp [Except.mapError]

/-- Reading a text against the grammar. -/
structure ReadsGrammar (s : String) : Prop where
  /-- The parts are those of a decomposition. -/
  ok_iff : ∀ i, ofString s = .ok i ↔ ∃ pieces, Decomposes s.toList pieces i.parts
  unique : ∀ pieces pieces' parts parts', Decomposes s.toList pieces parts →
    Decomposes s.toList pieces' parts' → pieces = pieces' ∧ parts = parts'
  refused_iff : Refused s ↔ ∀ pieces parts, ¬Decomposes s.toList pieces parts
  irregular : Irregular s.toList → Refused s

/-- Just the texts of the grammar are identifiers, each in one way. -/
theorem ofString_readsGrammar (s : String) : ReadsGrammar s := by
  constructor
  · intro i
    exact ofString_eq_ok_iff_decomposes
  · intro pieces pieces' parts parts' h h'
    obtain ⟨hwell, rfl, htext⟩ := decomposes_iff.mp h
    obtain ⟨hwell', rfl, htext'⟩ := decomposes_iff.mp h'
    have hparts : parts = parts' := by
      have htake := hwell.takeParts_text
      rw [← htext, htext', hwell'.takeParts_text] at htake
      exact (Except.ok.inj htake).symm
    rw [hparts]
    exact ⟨rfl, rfl⟩
  · rw [refused_iff]
    constructor
    · intro h pieces parts hdec
      exact h ⟨parts⟩ (ofString_eq_ok_iff_decomposes.mpr ⟨pieces, hdec⟩)
    · intro h i hi
      obtain ⟨pieces, hdec⟩ := ofString_eq_ok_iff_decomposes.mp hi
      exact h pieces i.parts hdec
  · intro h
    refine refused_iff.mpr fun i hi => ?_
    obtain ⟨hwell, rfl⟩ := ofString_eq_ok_iff.mp hi
    exact h.text_ne hwell rfl

end

end Criteria.Identifier
