import Criteria.Proofs.Reading.Outcomes

/-! The parts of a request depend on different entries of the document. -/
namespace Criteria

theorem ColumnMap.eq_of_entries {m n : ColumnMap} (h : m.entries = n.entries) : m = n := by
  cases m
  cases n
  simpa using h

theorem ColumnMap.not_mem_keys_filter {es : Entries Json} {k : String} {p : String × Json → Bool}
    (hk : k ∉ Entries.keys es) :
    k ∉ Entries.keys ((es.filter p).map fun e => (e.1, Value.ofJson e.2)) := by
  rw [Entries.keys, List.map_map]
  intro hk'
  obtain ⟨e, he, rfl⟩ := List.mem_map.mp hk'
  exact hk (List.mem_map_of_mem (List.mem_filter.mp he).1)

/-- A value with a new key goes to the end, if it is kept. -/
theorem ColumnMap.entries_insert? {limit : Option Nat} {m : ColumnMap} {es : Entries Json}
    {p : String × Json → Bool} {k : String} {j : Json}
    (hm : m.entries = (es.filter p).map fun e => (e.1, Value.ofJson e.2))
    (hk : k ∉ Entries.keys es) (hp : p (k, j) = true ↔ Fits limit j.nesting) :
    (m.insert? k (Value.ofJson? limit 0 j)).entries =
      ((es ++ [(k, j)]).filter p).map fun e => (e.1, Value.ofJson e.2) := by
  rw [Value.ofJson?, Nat.zero_add]
  by_cases hj : Fits limit j.nesting
  · have hkept : [(k, j)].filter p = [(k, j)] := List.filter_eq_self.mpr (by simp [hp, hj])
    rw [if_pos hj, List.filter_append, hkept, List.map_append, ← hm]
    refine Entries.insert_of_not_mem ?_
    rw [hm]
    exact not_mem_keys_filter hk
  · simp [insert?, hj, hm, hp]

/-- What one entry after the other preserves, a whole fold establishes. Keys never recur. -/
theorem Entries.foldl_induction {β : Type} {P : Entries Json → β → Prop}
    {f : β → String × Json → β} {b : β} (hb : P [] b)
    (step : ∀ es k j b, k ∉ Entries.keys es → P es b → P (es ++ [(k, j)]) (f b (k, j)))
    {es : Entries Json} (hn : es.keys.Nodup) : P es (es.foldl f b) := by
  induction es using List.reverseRecOn with
  | nil => exact hb
  | append_singleton es e ih =>
    have hes : (Entries.keys es).Nodup := by
      rw [Entries.keys, List.map_append] at hn
      exact hn.of_append_left
    rw [List.foldl_append]
    exact step es e.1 e.2 _ (Entries.not_mem_keys_of_nodup hn) (ih hes)

namespace ReadRequest

variable {mode : Mode} {limit : Option Nat} {es fs : Entries Json} {r r' : ReadRequest}
  {key : String} {j : Json}

/-- The keys that are no fields. -/
def reserved : List String := ["orderBy", "limit", "offset"]

theorem ne_orderBy_of_not_reserved (h : key ∉ reserved) : key ≠ "orderBy" := by
  rintro rfl
  exact h List.mem_cons_self

/-- Each part of a request with the entries that it comes from. -/
structure Assembles (depth : Option Nat) (es : Entries Json) (r : ReadRequest) : Prop where
  fields : r.fields.entries = (es.filter fun e => e.1 ∉ reserved ∧ Fits depth e.2.nesting).map
    fun e => (e.1, Value.ofJson e.2)
  order : r.order = (es.get? "orderBy").bind OrderClause.ofJson?
  limit : r.limit = (es.get? "limit").bind (bound? depth)
  offset : r.offset = (es.get? "offset").bind (bound? depth)

theorem assembles_nil : Assembles limit [] {} := ⟨rfl, rfl, rfl, rfl⟩

theorem assembles_put (hk : key ∉ Entries.keys es) (h : Assembles limit es r) :
    Assembles limit (es ++ [(key, j)]) (put limit r (key, j)) := by
  obtain ⟨hfields, horder, hlimit, hoffset⟩ := h
  have hself : Entries.get? key (es ++ [(key, j)]) = some j :=
    Entries.get?_append_singleton_self hk
  have hne : ∀ l, l ≠ key → Entries.get? l (es ++ [(key, j)]) = Entries.get? l es :=
    fun l hl => Entries.get?_append_singleton_of_ne hl.symm
  rw [put]
  dsimp only
  -- a reserved key fills its own part, and every other key is a field
  split
  · subst key
    constructor
    · simpa [reserved] using hfields
    · simp [hself]
    · simpa [hne] using hlimit
    · simpa [hne] using hoffset
  rename_i ho
  split
  · subst key
    constructor
    · simpa [reserved] using hfields
    · simpa [hne] using horder
    · simp [hself]
    · simpa [hne] using hoffset
  rename_i hl
  split
  · subst key
    constructor
    · simpa [reserved] using hfields
    · simpa [hne] using horder
    · simpa [hne] using hlimit
    · simp [hself]
  · rename_i hf
    constructor
    · exact ColumnMap.entries_insert? hfields hk (by simp [reserved, ho, hl, hf])
    · simpa [hne _ (Ne.symm ho)] using horder
    · simpa [hne _ (Ne.symm hl)] using hlimit
    · simpa [hne _ (Ne.symm hf)] using hoffset

theorem assembles_kept (hn : es.keys.Nodup) : Assembles limit es (kept limit (.object es)) :=
  Entries.foldl_induction assembles_nil (fun _ _ _ _ hk h => assembles_put hk h) hn

theorem ofJson_object_eq_ok_iff : (ofJson ⟨mode, limit⟩ (.object es)).result = .ok r ↔
    (mode = .strict → ∀ e ∈ es, entryDefects limit none e = []) ∧
      kept limit (.object es) = r := by
  have hmet : metDefects limit none (.object es) = [] ↔
      ∀ e ∈ es, entryDefects limit none e = [] := by
    rw [← List.head?_eq_none_iff, head?_metDefects, List.head?_eq_none_iff]
    exact List.flatMap_eq_nil_iff
  rw [ofJson, read_eq, Reading.ofDefects_eq_ok_iff, hmet]

theorem assembles_of_ofJson (hn : es.keys.Nodup)
    (h : (ofJson ⟨mode, limit⟩ (.object es)).result = .ok r) : Assembles limit es r := by
  rw [← (ofJson_object_eq_ok_iff.mp h).2]
  exact assembles_kept hn

/-- The same entries, with the reserved ones at other places among the fields. -/
structure ReservedMoved (es fs : Entries Json) : Prop where
  perm : es.Perm fs
  fields : (es.filter fun e => e.1 ∉ reserved) = fs.filter fun e => e.1 ∉ reserved

theorem eq_of_parts (hfields : r.fields.entries = r'.fields.entries) (horder : r.order = r'.order)
    (hlimit : r.limit = r'.limit) (hoffset : r.offset = r'.offset) : r = r' := by
  obtain ⟨m, order, limit, offset⟩ := r
  obtain ⟨m', order', limit', offset'⟩ := r'
  have hm : m = m' := ColumnMap.eq_of_entries hfields
  simp_all

theorem Assembles.eq_of_moved (hm : ReservedMoved es fs) (hn : es.keys.Nodup)
    (h : Assembles limit es r) (h' : Assembles limit fs r') : r = r' := by
  have hget : ∀ k, fs.get? k = es.get? k := fun k => (Entries.get?_perm hm.perm hn).symm
  have hfilter : ∀ es : Entries Json,
      (es.filter fun e => e.1 ∉ reserved ∧ Fits limit e.2.nesting) =
        (es.filter fun e => e.1 ∉ reserved).filter fun e => Fits limit e.2.nesting := by
    intro es
    simp only [List.filter_filter, Bool.decide_and, Bool.and_comm]
  apply eq_of_parts
  · rw [h.fields, h'.fields, hfilter, hm.fields, hfilter]
  · rw [h.order, h'.order, hget]
  · rw [h.limit, h'.limit, hget]
  · rw [h.offset, h'.offset, hget]

theorem ofJson_moved (hm : ReservedMoved es fs) (hn : es.keys.Nodup) :
    (ofJson ⟨mode, limit⟩ (.object es)).result = .ok r ↔
      (ofJson ⟨mode, limit⟩ (.object fs)).result = .ok r := by
  have hn' : fs.keys.Nodup := (hm.perm.map Prod.fst).nodup_iff.mp hn
  have hkept := (@assembles_kept limit es hn).eq_of_moved hm hn (assembles_kept hn')
  simp only [ofJson_object_eq_ok_iff, hkept, hm.perm.mem_iff]

/-- Two requests that differ at most in what they have for one key. -/
structure AgreeBut (key : String) (r r' : ReadRequest) : Prop where
  /-- All other fields are the same, in the same order. -/
  fields : (r.fields.entries.filter fun e => e.1 ≠ key) =
    r'.fields.entries.filter fun e => e.1 ≠ key
  fields_reserved : key ∈ reserved → r.fields = r'.fields
  order : key ≠ "orderBy" → r.order = r'.order
  limit : key ≠ "limit" → r.limit = r'.limit
  offset : key ≠ "offset" → r.offset = r'.offset

theorem Assembles.agreeBut (h : Assembles limit es r)
    (h' : Assembles limit (es.insert key j) r') : AgreeBut key r r' := by
  have hget : ∀ k, key ≠ k → (es.insert key j).get? k = es.get? k :=
    fun k hk => Entries.get?_insert_of_ne hk.symm
  constructor
  · simp only [h.fields, h'.fields, List.filter_map, List.filter_filter]
    rw [Entries.filter_insert (by simp)]
  · intro hk
    refine ColumnMap.eq_of_entries ?_
    rw [h.fields, h'.fields, Entries.filter_insert (by simp [hk])]
  · intro hk
    rw [h.order, h'.order, hget _ hk]
  · intro hk
    rw [h.limit, h'.limit, hget _ hk]
  · intro hk
    rw [h.offset, h'.offset, hget _ hk]

/-- How the parts of a request go with the entries of the object that it is read from. -/
structure Decomposes (limit : Option Nat) (es : Entries Json) : Prop where
  /-- A mode that drops what is malformed never fails, whatever the object. -/
  ok : ∀ mode ≠ .strict, ∀ fs, ∃ r, (ofJson ⟨mode, limit⟩ (.object fs)).result = .ok r
  assembles : ∀ mode r, (ofJson ⟨mode, limit⟩ (.object es)).result = .ok r → Assembles limit es r
  moved : ∀ mode fs r, ReservedMoved es fs →
    ((ofJson ⟨mode, limit⟩ (.object es)).result = .ok r ↔
      (ofJson ⟨mode, limit⟩ (.object fs)).result = .ok r)
  replaced : ∀ mode key j r r', (ofJson ⟨mode, limit⟩ (.object es)).result = .ok r →
    (ofJson ⟨mode, limit⟩ (.object (es.insert key j))).result = .ok r' → AgreeBut key r r'

/-- No part of a request disturbs another, whatever the mode. -/
theorem decomposes (limit : Option Nat) (es : Entries Json) (hn : es.keys.Nodup) :
    Decomposes limit es := by
  constructor
  · intro mode hmode fs
    exact ⟨_, ofJson_object_eq_ok_iff.mpr ⟨fun h => (hmode h).elim, rfl⟩⟩
  · intro mode r h
    exact assembles_of_ofJson hn h
  · intro mode fs r hm
    exact ofJson_moved hm hn
  · intro mode key j r r' h h'
    have hes := assembles_of_ofJson hn h
    exact hes.agreeBut (assembles_of_ofJson (Entries.nodup_insert hn) h')

/-- Here the order is malformed, and the items of `tags` lie too deep. -/
theorem decomposes_tags :
    let es : Entries Json := [("limit", .string "10"), ("tags", .array [.null]),
      ("orderBy", .bool true), ("id", .null)]
    es.keys.Nodup ∧ Decomposes (some 0) es ∧
      (ofJson ⟨.warning, some 0⟩ (.object es)).result =
        .ok { fields := ColumnMap.ofList [("id", .null)], limit := some (.text "10") } := by
  intro es
  have hn : es.keys.Nodup := by decide
  exact ⟨hn, decomposes (some 0) es hn, rfl⟩

end ReadRequest

section

variable {limit : Option Nat} {es : Entries Json}

theorem InsertRequest.entries_kept (hn : es.keys.Nodup) :
    (kept limit (.object es)).fields.entries =
      (es.filter fun e => Fits limit e.2.nesting).map fun e => (e.1, Value.ofJson e.2) := by
  refine Entries.foldl_induction (P := fun es (m : ColumnMap) => m.entries =
    (es.filter fun e => Fits limit e.2.nesting).map fun e => (e.1, Value.ofJson e.2)) rfl ?_ hn
  intro es k j m hk hm
  exact ColumnMap.entries_insert? hm hk (by simp)

namespace UpdateRequest

/-- Each part of a request with the entries that it comes from. -/
structure Assembles (limit : Option Nat) (es : Entries Json) (r : UpdateRequest) : Prop where
  fields : r.fields.entries =
    (es.filter fun e => e.1 ≠ "queryOptions" ∧ Fits limit e.2.nesting).map
      fun e => (e.1, Value.ofJson e.2)
  selection : r.selection =
    ((es.get? "queryOptions").bind Json.nonNull?).map (ReadRequest.kept limit)

theorem assembles_put {key : String} {j : Json} {r : UpdateRequest}
    (hk : key ∉ Entries.keys es) (h : Assembles limit es r) :
    Assembles limit (es ++ [(key, j)]) (put limit r (key, j)) := by
  obtain ⟨hfields, hselection⟩ := h
  rw [put]
  dsimp only
  split
  · subst key
    have hself : Entries.get? "queryOptions" (es ++ [("queryOptions", j)]) = some j :=
      Entries.get?_append_singleton_self hk
    rw [Entries.get?_eq_none_iff.mpr hk] at hselection
    cases hj : j.nonNull? with
    | none =>
      constructor
      · simpa using hfields
      · simpa [hself, hj] using hselection
    | some q =>
      constructor
      · simpa [selecting] using hfields
      · simp [hself, hj, selecting]
  · rename_i hq
    constructor
    · exact ColumnMap.entries_insert? hfields hk (by simp [hq])
    · rw [Entries.get?_append_singleton_of_ne hq]
      exact hselection

theorem assembles_kept (hn : es.keys.Nodup) : Assembles limit es (kept limit (.object es)) :=
  Entries.foldl_induction ⟨rfl, rfl⟩ (fun _ _ _ _ hk h => assembles_put hk h) hn

end UpdateRequest

end

end Criteria
