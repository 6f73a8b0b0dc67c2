import Criteria.Proofs.Reading.Grammar
import Criteria.Proofs.Reading.Parts

/-! A strict reading that succeeds keeps all that the document says. -/
namespace Criteria

section

variable {limit : Option Nat} {base : Option Path} {j : Json}

theorem Json.Acceptable.fits_nesting (h : j.Acceptable limit 0) : Fits limit j.nesting := by
  have hdefects := (Json.diagnoses j .root 0).nil_iff.mpr h
  have hdeep := (@Json.defects_tooDeep_iff limit j .root 0).mp (by simp [hdefects])
  rwa [Nat.zero_add] at hdeep

theorem OrderTerm.written_of_isOrderTerm (h : j.IsOrderTerm) :
    ∃ t, ofJson? j = some t ∧ Written j t := by
  obtain @⟨es, c, column, direction⟩ := h
  cases hd : Entries.get? "direction" es with
  | none => exact ⟨⟨c, none⟩, by simp [ofJson?, column, hd], .plain column (by simp [hd])⟩
  | some d =>
    obtain rfl | ⟨s, rfl⟩ := direction d hd
    · refine ⟨⟨c, none⟩, by simp [ofJson?, column, hd], .plain column ?_⟩
      simp [hd, Json.nonNull?]
    · exact ⟨⟨c, some s⟩, by simp [ofJson?, column, hd], .directed column hd⟩

theorem OrderClause.written_of_isOrderTerms {js : List Json} (h : ∀ j ∈ js, j.IsOrderTerm) :
    List.Forall₂ OrderTerm.Written js (js.filterMap OrderTerm.ofJson?) := by
  induction js with
  | nil => exact .nil
  | cons j js ih =>
    obtain ⟨hj, hjs⟩ := List.forall_mem_cons.mp h
    obtain ⟨t, ht, hw⟩ := OrderTerm.written_of_isOrderTerm hj
    rw [List.filterMap_cons_some ht]
    exact .cons hw (ih hjs)

theorem OrderClause.written_of_isOrder (h : j.IsOrder) :
    List.Forall₂ OrderTerm.Written j.orderParts ((ofJson? j).toList.flatMap toTerms) := by
  cases h with
  | null => exact .nil
  | name s => exact .cons (.name s) .nil
  | term h =>
    obtain ⟨t, ht, hw⟩ := OrderTerm.written_of_isOrderTerm h
    cases h
    simpa [ofJson?, ht, toTerms, Json.orderParts] using hw
  | terms h => simpa [ofJson?, toTerms, Json.orderParts] using written_of_isOrderTerms h

/-- An accepted document has its entries, and null has none. -/
theorem Json.RootAccepted.of_mem_entries {accepted : String × Json → Prop}
    (h : j.RootAccepted accepted) : ∀ e ∈ j.entries, accepted e := by
  cases h with
  | null => exact fun e he => nomatch he
  | object h => exact h

theorem Value.ofJson?_of_acceptable (h : j.Acceptable limit 0) :
    ofJson? limit 0 j = some (ofJson j) := by
  rw [ofJson?, Nat.zero_add, if_pos h.fits_nesting]

namespace ReadRequest

theorem bound?_of_acceptable (h : j.Acceptable limit 0) :
    bound? limit j = j.nonNull?.map Value.ofJson := by
  cases j with
  | null => rfl
  | _ => exact Value.ofJson?_of_acceptable h

/-- The request says all that the entries say. -/
structure Says (es : Entries Json) (r : ReadRequest) : Prop where
  fields : r.fields.entries =
    (es.filter fun e => e.1 ∉ reserved).map fun e => (e.1, Value.ofJson e.2)
  order : List.Forall₂ OrderTerm.Written ((es.get? "orderBy").toList.flatMap Json.orderParts)
    (r.order.toList.flatMap OrderClause.toTerms)
  limit : r.limit = ((es.get? "limit").bind Json.nonNull?).map Value.ofJson
  offset : r.offset = ((es.get? "offset").bind Json.nonNull?).map Value.ofJson

theorem Assembles.toSays {es : Entries Json} {r : ReadRequest} (h : Assembles limit es r)
    (hn : es.keys.Nodup) (ha : ∀ e ∈ es, EntryAccepted limit e) : Says es r := by
  have hvalue : ∀ e ∈ es, e.1 ≠ "orderBy" → e.2.Acceptable limit 0 := by
    intro e he hk
    simpa [EntryAccepted, hk] using ha e he
  have hbound : ∀ k, k ≠ "orderBy" →
      (es.get? k).bind (bound? limit) = ((es.get? k).bind Json.nonNull?).map Value.ofJson := by
    intro k hk
    cases hj : es.get? k with
    | none => rfl
    | some j =>
      exact bound?_of_acceptable (hvalue _ ((Entries.get?_eq_some_iff_mem hn).mp hj) hk)
  constructor
  · rw [h.fields]
    congr 1
    refine List.filter_congr fun e he => ?_
    by_cases hk : e.1 ∈ reserved
    · simp [hk]
    · simp [hk, (hvalue e he (ne_orderBy_of_not_reserved hk)).fits_nesting]
  · rw [h.order]
    cases hj : es.get? "orderBy" with
    | none => exact .nil
    | some j =>
      have hmem := (Entries.get?_eq_some_iff_mem hn).mp hj
      have horder : j.IsOrder := by simpa [EntryAccepted] using ha _ hmem
      simpa using OrderClause.written_of_isOrder horder
  · rw [h.limit, hbound "limit" (by decide)]
  · rw [h.offset, hbound "offset" (by decide)]

theorem says_kept (hj : j.entries.keys.Nodup) (h : Accepted limit j) :
    Says j.entries (kept limit j) :=
  (@assembles_kept limit _ hj).toSays hj h.of_mem_entries

/-- A strict reading that succeeds reads all entries. -/
theorem says_of_read (hj : j.entries.keys.Nodup) {r : ReadRequest}
    (h : (read ⟨.strict, limit⟩ base j).result = .ok r) : Says j.entries r := by
  rw [read_eq] at h
  obtain ⟨ha, rfl⟩ := Reading.accepted_of_ok (diagnoses_met limit base j) h
  exact says_kept hj ha

end ReadRequest

theorem InsertRequest.entries_of_ofJson (hj : j.entries.keys.Nodup) {r : InsertRequest}
    (h : (InsertRequest.ofJson ⟨.strict, limit⟩ j).result = .ok r) :
    r.fields.entries = j.entries.map fun e => (e.1, Value.ofJson e.2) := by
  rw [ofJson_eq] at h
  obtain ⟨ha, rfl⟩ := Reading.accepted_of_ok (diagnoses_met limit j) h
  have hentries := @entries_kept limit _ hj
  have hfits : ∀ e ∈ j.entries, Fits limit e.2.nesting :=
    fun e he => (ha.of_mem_entries e he).fits_nesting
  rwa [List.filter_eq_self.mpr (by simpa using hfits)] at hentries

namespace UpdateRequest

/-- The request says all that the entries say. -/
structure Says (es : Entries Json) (r : UpdateRequest) : Prop where
  fields : r.fields.entries =
    (es.filter fun e => e.1 ≠ "queryOptions").map fun e => (e.1, Value.ofJson e.2)
  selection : Option.Rel (fun j q => ReadRequest.Says j.entries q)
    ((es.get? "queryOptions").bind Json.nonNull?) r.selection

theorem Assembles.toSays {es : Entries Json} {r : UpdateRequest} (h : Assembles limit es r)
    (hn : es.keys.Nodup) (hq : ∀ e ∈ es, e.2.entries.keys.Nodup)
    (ha : ∀ e ∈ es, EntryAccepted limit e) : Says es r := by
  constructor
  · rw [h.fields]
    congr 1
    refine List.filter_congr fun e he => ?_
    by_cases hk : e.1 = "queryOptions"
    · simp [hk]
    · have hvalue : e.2.Acceptable limit 0 := by simpa [EntryAccepted, hk] using ha e he
      simp [hk, hvalue.fits_nesting]
  · rw [h.selection]
    cases hj : es.get? "queryOptions" with
    | none => exact .none
    | some j =>
      have hmem := (Entries.get?_eq_some_iff_mem hn).mp hj
      have hread : ReadRequest.Accepted limit j := by simpa [EntryAccepted] using ha _ hmem
      cases j with
      | null => exact .none
      | _ => exact .some (ReadRequest.says_kept (hq _ hmem) hread)

theorem says_of_ofJson (hj : j.WellFormed) {r : UpdateRequest}
    (h : (ofJson ⟨.strict, limit⟩ j).result = .ok r) : Says j.entries r := by
  rw [ofJson_eq] at h
  obtain ⟨ha, rfl⟩ := Reading.accepted_of_ok (diagnoses_met limit j) h
  have hentries := @assembles_kept limit _ hj.nodup_entries
  exact hentries.toSays hj.nodup_entries (fun e he => (hj.of_mem_entries he).nodup_entries)
    ha.of_mem_entries

end UpdateRequest

end

end Criteria
