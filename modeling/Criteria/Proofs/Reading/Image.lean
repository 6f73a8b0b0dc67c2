import Criteria.Proofs.Reading.Fields
import Criteria.Proofs.Reading.Grammar
import Criteria.Proofs.Value.Image

/-! Which requests come from documents, and a document for each of them. -/
namespace Criteria

section

variable {α : Type} {key k : String} {a? : Option α}

/-- An entry for what there is. -/
def Entries.ofOption (key : String) (a? : Option α) : Entries α := a?.toList.map fun a => (key, a)

theorem Entries.keys_ofOption_sublist : (ofOption key a?).keys.Sublist [key] := by
  cases a? with
  | none => exact List.nil_sublist [key]
  | some a => exact .refl [key]

theorem Entries.get?_ofOption_self : (ofOption key a?).get? key = a? := by
  cases a? <;> simp [ofOption, get?]

theorem Entries.get?_ofOption_of_ne (h : key ≠ k) : (ofOption key a?).get? k = none := by
  cases a? <;> simp [ofOption, get?, h]

theorem Entries.forall_mem_ofOption_iff {P : String × α → Prop} :
    (∀ e ∈ ofOption key a?, P e) ↔ ∀ a ∈ a?, P (key, a) := by
  cases a? <;> simp [ofOption]

end

namespace OrderTerm

/-- The column, and the direction if there is one. -/
def toJson (t : OrderTerm) : Json :=
  .object (("column", .string t.column) :: Entries.ofOption "direction" (t.direction.map .string))

theorem isOrderTerm_toJson (t : OrderTerm) : t.toJson.IsOrderTerm := by
  obtain ⟨c, direction⟩ := t
  cases direction with
  | none => exact .intro rfl nofun
  | some s => exact .intro rfl fun d hd => .inr ⟨s, Option.some.inj hd.symm⟩

theorem ofJson?_toJson (t : OrderTerm) : ofJson? t.toJson = some t := by
  obtain ⟨c, direction⟩ := t
  cases direction <;> rfl

theorem wellFormed_toJson (t : OrderTerm) : t.toJson.WellFormed := by
  obtain ⟨c, direction⟩ := t
  cases direction with
  | none => simp [toJson, Entries.ofOption, Json.wellFormed_object_iff, Json.WellFormed]
  | some s => simp [toJson, Entries.ofOption, Json.wellFormed_object_iff, Json.WellFormed]

end OrderTerm

namespace OrderClause

def toJson : OrderClause → Json
  | column name => .string name
  | term t => t.toJson
  | terms ts => .array (ts.map OrderTerm.toJson)

theorem isOrder_toJson (c : OrderClause) : c.toJson.IsOrder := by
  cases c with
  | column name => exact .name name
  | term t => exact .term t.isOrderTerm_toJson
  | terms ts => exact .terms (List.forall_mem_map.mpr fun t _ => t.isOrderTerm_toJson)

theorem ofJson?_toJson (c : OrderClause) : ofJson? c.toJson = some c := by
  cases c with
  | column name => rfl
  | term t =>
    have hterm : ofJson? t.toJson = (OrderTerm.ofJson? t.toJson).map .term := rfl
    rw [toJson, hterm, t.ofJson?_toJson, Option.map_some]
  | terms ts =>
    have hread : OrderTerm.ofJson? ∘ OrderTerm.toJson = some := funext OrderTerm.ofJson?_toJson
    rw [toJson, ofJson?, List.filterMap_map, hread, List.filterMap_some]

theorem wellFormed_toJson (c : OrderClause) : c.toJson.WellFormed := by
  cases c with
  | column name => trivial
  | term t => exact t.wellFormed_toJson
  | terms ts =>
    exact Json.wellFormed_array_iff.mpr (List.forall_mem_map.mpr fun t _ => t.wellFormed_toJson)

end OrderClause

namespace ColumnMap

variable {limit : Option Nat} {reserved : List String} {m : ColumnMap} {rest : Entries Json}
  {k : String} {j : Json}

/-- Fields that some document gives, where some keys are no fields. -/
structure Readable (limit : Option Nat) (reserved : List String) (m : ColumnMap) : Prop where
  /-- This holds of any map. -/
  distinct : m.columns.Nodup
  columns : ∀ c ∈ m.columns, c ∉ reserved
  values : ∀ e ∈ m.entries, e.2.Readable limit

def Plain (m : ColumnMap) : Prop := ∀ e ∈ m.entries, e.2.Plain

def toEntries (m : ColumnMap) : Entries Json := m.entries.map fun e => (e.1, e.2.toJson)

theorem keys_toEntries : m.toEntries.keys = m.columns := by
  rw [toEntries, Entries.keys, List.map_map]
  rfl

theorem readable_ofList_fieldPairs (hj : j.WellFormed) :
    (ofList (fieldPairs limit reserved j.entries)).Readable limit reserved := by
  have hentries := entries_ofList (@nodup_fieldPairs limit reserved _ hj.nodup_entries)
  constructor
  · exact (ofList _).nodup
  · intro c hc
    rw [columns, hentries] at hc
    obtain ⟨e, he, rfl⟩ := List.mem_map.mp hc
    obtain ⟨-, -, hr, -⟩ := mem_fieldPairs_iff.mp he
    exact hr
  · intro e he
    rw [hentries] at he
    obtain ⟨x, hx, -, hv⟩ := mem_fieldPairs_iff.mp he
    exact .of_ofJson? (hj.of_mem_entries hx) hv

namespace Readable

variable (h : m.Readable limit reserved)

include h

theorem nodup_append (hr : reserved.Nodup) (hrest : rest.keys.Sublist reserved) :
    (m.toEntries ++ rest).keys.Nodup := by
  have hkeys : (m.toEntries ++ rest).keys = m.columns ++ rest.keys := by
    rw [← keys_toEntries]
    exact List.map_append
  rw [hkeys, List.nodup_append]
  refine ⟨h.distinct, hr.sublist hrest, ?_⟩
  rintro c hc _ hk rfl
  exact h.columns c hc (hrest.subset hk)

theorem get?_append (hk : k ∈ reserved) : (m.toEntries ++ rest).get? k = rest.get? k := by
  have hnone : m.toEntries.get? k = none := by
    rw [Entries.get?_eq_none_iff, keys_toEntries]
    exact fun hc => h.columns k hc hk
  rw [Entries.get?_append, hnone, Option.none_or]

theorem fieldPairs_toEntries : fieldPairs limit reserved m.toEntries = m.entries := by
  have hread : ∀ e ∈ m.entries, Fits limit e.2.toJson.nesting ∧ Value.ofJson e.2.toJson = e.2 := by
    intro e he
    have hv := h.values e he
    rw [hv.canonical.nesting_toJson]
    exact ⟨hv.fits, hv.canonical.ofJson_toJson⟩
  have hcolumn : ∀ e ∈ m.entries, e.1 ∉ reserved :=
    fun e he => h.columns e.1 (List.mem_map_of_mem he)
  have hkept : (m.toEntries.filter fun e => e.1 ∉ reserved ∧ Fits limit e.2.nesting) =
      m.toEntries := by
    refine List.filter_eq_self.mpr (List.forall_mem_map.mpr fun e he => ?_)
    exact decide_eq_true ⟨hcolumn e he, (hread e he).1⟩
  rw [fieldPairs, hkept, toEntries, List.map_map]
  nth_rewrite 2 [← List.map_id m.entries]
  exact List.map_congr_left fun e he => Prod.ext rfl (hread e he).2

/-- The fields are read back from among other entries. -/
theorem fields_append (hrest : rest.keys.Sublist reserved) :
    ofList (fieldPairs limit reserved (m.toEntries ++ rest)) = m := by
  rw [fieldPairs_append, h.fieldPairs_toEntries,
    fieldPairs_of_reserved fun k hk => hrest.subset hk, List.append_nil]
  exact eq_of_entries (entries_ofList m.nodup)

/-- An entry for a field is accepted just if its value is. -/
theorem accepted_iff {accepted : String × Json → Prop}
    (ha : ∀ e, e.1 ∉ reserved → (accepted e ↔ e.2.Acceptable limit 0)) :
    (∀ e ∈ m.toEntries, accepted e) ↔ m.Plain := by
  rw [toEntries, List.forall_mem_map]
  refine forall₂_congr fun e he => ?_
  have hk : e.1 ∉ reserved := h.columns e.1 (List.mem_map_of_mem he)
  exact (ha (e.1, e.2.toJson) hk).trans (h.values e he).acceptable_iff

theorem wellFormed_append (hr : reserved.Nodup) (hrest : rest.keys.Sublist reserved)
    (hw : ∀ e ∈ rest, e.2.WellFormed) : (Json.object (m.toEntries ++ rest)).WellFormed := by
  refine Json.wellFormed_object_iff.mpr ⟨h.nodup_append hr hrest, ?_⟩
  refine List.forall_mem_append.mpr ⟨List.forall_mem_map.mpr fun e he => ?_, hw⟩
  exact Value.wellFormed_toJson (h.values e he).wellFormed

end Readable

end ColumnMap

theorem Json.rootAccepted_object_iff {accepted : String × Json → Prop} {es : Entries Json} :
    RootAccepted accepted (.object es) ↔ ∀ e ∈ es, accepted e := by
  constructor
  · intro h
    cases h with
    | object h => exact h
  · exact .object

theorem Json.eq_of_nonNull? {i j : Json} (h : j.nonNull? = some i) : j = i := by
  cases j with
  | null => cases h
  | _ => exact Option.some.inj h

section

variable {limit : Option Nat} {j : Json}

namespace ReadRequest

variable {r : ReadRequest} {v : Value}

/-- A limit or an offset that some document gives. -/
def BoundReadable (limit : Option Nat) (bound : Option Value) : Prop :=
  ∀ v ∈ bound, v ≠ .null ∧ v.Readable limit

/-- A request that some document gives. Its order may be any. -/
structure Readable (depth : Option Nat) (r : ReadRequest) : Prop where
  fields : r.fields.Readable depth reserved
  limit : BoundReadable depth r.limit
  offset : BoundReadable depth r.offset

/-- No object in the request could have been meant as a comparison. -/
structure Plain (r : ReadRequest) : Prop where
  fields : r.fields.Plain
  limit : ∀ v ∈ r.limit, v.Plain
  offset : ∀ v ∈ r.offset, v.Plain

/-- The entries for the reserved keys. -/
def reservedEntries (r : ReadRequest) : Entries Json :=
  .ofOption "orderBy" (r.order.map OrderClause.toJson) ++
    (.ofOption "limit" (r.limit.map Value.toJson) ++ .ofOption "offset" (r.offset.map Value.toJson))

def toJson (r : ReadRequest) : Json := .object (r.fields.toEntries ++ r.reservedEntries)

theorem keys_reservedEntries_sublist : r.reservedEntries.keys.Sublist reserved := by
  rw [reservedEntries, Entries.keys, List.map_append, List.map_append]
  exact Entries.keys_ofOption_sublist.append
    (Entries.keys_ofOption_sublist.append Entries.keys_ofOption_sublist)

theorem nodup_reserved : reserved.Nodup := by decide

/-- Each reserved key has the entry of its own part. -/
theorem get?_reservedEntries :
    r.reservedEntries.get? "orderBy" = r.order.map OrderClause.toJson ∧
      r.reservedEntries.get? "limit" = r.limit.map Value.toJson ∧
      r.reservedEntries.get? "offset" = r.offset.map Value.toJson := by
  simp [reservedEntries, Entries.get?_append, Entries.get?_ofOption_self,
    Entries.get?_ofOption_of_ne]

theorem bound?_eq_some_iff :
    bound? limit j = some v ↔ j ≠ .null ∧ Value.ofJson? limit 0 j = some v := by
  cases j <;> simp [bound?, Json.nonNull?]

theorem BoundReadable.bound?_toJson {bound : Option Value} (h : BoundReadable limit bound) :
    (bound.map Value.toJson).bind (bound? limit) = bound := by
  cases bound with
  | none => rfl
  | some v =>
    obtain ⟨hv, hread⟩ := h v rfl
    exact bound?_eq_some_iff.mpr ⟨hread.canonical.toJson_ne_null hv, hread.ofJson?_toJson⟩

theorem boundReadable_of_bound? {j? : Option Json} (hj : ∀ j ∈ j?, j.WellFormed) :
    BoundReadable limit (j?.bind (bound? limit)) := by
  intro v hv
  obtain ⟨j, hmem, hv⟩ := Option.bind_eq_some_iff.mp hv
  obtain ⟨hnull, hv⟩ := bound?_eq_some_iff.mp hv
  refine ⟨?_, .of_ofJson? (hj j hmem) hv⟩
  rw [← (Value.ofJson?_eq_some_iff.mp hv).2]
  exact Value.ofJson_ne_null hnull

theorem readable_kept (hj : j.WellFormed) : (kept limit j).Readable limit := by
  have hassembles : Assembles limit j.entries (kept limit j) := assembles_kept hj.nodup_entries
  constructor
  · rw [fields_kept]
    exact ColumnMap.readable_ofList_fieldPairs hj
  · rw [hassembles.limit]
    exact boundReadable_of_bound? fun _ => hj.of_get?_entries
  · rw [hassembles.offset]
    exact boundReadable_of_bound? fun _ => hj.of_get?_entries

namespace Readable

variable (h : r.Readable limit)

include h

theorem wellFormed_toJson : r.toJson.WellFormed := by
  refine h.fields.wellFormed_append nodup_reserved keys_reservedEntries_sublist ?_
  have hbound : ∀ bound, BoundReadable limit bound →
      ∀ i ∈ bound.map Value.toJson, i.WellFormed := by
    intro bound hb i hi
    obtain ⟨v, hv, rfl⟩ := Option.map_eq_some_iff.mp hi
    exact Value.wellFormed_toJson (hb v hv).2.wellFormed
  simp only [reservedEntries, List.forall_mem_append, Entries.forall_mem_ofOption_iff]
  refine ⟨?_, hbound _ h.limit, hbound _ h.offset⟩
  intro i hi
  obtain ⟨c, -, rfl⟩ := Option.map_eq_some_iff.mp hi
  exact c.wellFormed_toJson

theorem kept_toJson : kept limit r.toJson = r := by
  have hn := h.fields.nodup_append nodup_reserved (@keys_reservedEntries_sublist r)
  have hassembles : Assembles limit _ (kept limit r.toJson) := assembles_kept hn
  obtain ⟨horder, hlimit, hoffset⟩ := @get?_reservedEntries r
  apply eq_of_parts
  · rw [fields_kept]
    exact congrArg _ (h.fields.fields_append keys_reservedEntries_sublist)
  · rw [hassembles.order, h.fields.get?_append (by decide), horder]
    cases r.order with
    | none => rfl
    | some c => exact c.ofJson?_toJson
  · rw [hassembles.limit, h.fields.get?_append (by decide), hlimit]
    exact h.limit.bound?_toJson
  · rw [hassembles.offset, h.fields.get?_append (by decide), hoffset]
    exact h.offset.bound?_toJson

theorem accepted_toJson_iff : Accepted limit r.toJson ↔ r.Plain := by
  have hfields : (∀ e ∈ r.fields.toEntries, EntryAccepted limit e) ↔ r.fields.Plain := by
    refine h.fields.accepted_iff fun e hk => ?_
    rw [EntryAccepted, if_neg (ne_orderBy_of_not_reserved hk)]
  have hbound : ∀ k, k ≠ "orderBy" → ∀ bound, BoundReadable limit bound →
      ((∀ i ∈ bound.map Value.toJson, EntryAccepted limit (k, i)) ↔ ∀ v ∈ bound, v.Plain) := by
    intro k hk bound hb
    cases bound with
    | none => simp
    | some v =>
      have hv := (hb v rfl).2.acceptable_iff
      simpa [EntryAccepted, hk] using hv
  have horder : ∀ i ∈ r.order.map OrderClause.toJson, EntryAccepted limit ("orderBy", i) := by
    intro i hi
    obtain ⟨c, -, rfl⟩ := Option.map_eq_some_iff.mp hi
    exact c.isOrder_toJson
  rw [Accepted, toJson, Json.rootAccepted_object_iff, List.forall_mem_append, hfields,
    reservedEntries]
  simp only [List.forall_mem_append, Entries.forall_mem_ofOption_iff]
  rw [hbound "limit" (by decide) _ h.limit, hbound "offset" (by decide) _ h.offset]
  constructor
  · rintro ⟨hf, -, hl, ho⟩
    exact ⟨hf, hl, ho⟩
  · rintro ⟨hf, hl, ho⟩
    exact ⟨hf, horder, hl, ho⟩

end Readable

end ReadRequest

namespace InsertRequest

variable {r : InsertRequest}

def Readable (limit : Option Nat) (r : InsertRequest) : Prop := r.fields.Readable limit []

def Plain (r : InsertRequest) : Prop := r.fields.Plain

def toJson (r : InsertRequest) : Json := .object r.fields.toEntries

theorem readable_kept (hj : j.WellFormed) : (kept limit j).Readable limit := by
  rw [Readable, fields_kept]
  exact ColumnMap.readable_ofList_fieldPairs hj

namespace Readable

variable (h : r.Readable limit)

include h

theorem wellFormed_toJson : r.toJson.WellFormed := by
  rw [toJson, ← List.append_nil r.fields.toEntries]
  exact ColumnMap.Readable.wellFormed_append h List.nodup_nil (.refl []) nofun

theorem kept_toJson : kept limit r.toJson = r := by
  have hfields : (kept limit r.toJson).fields = r.fields := by
    rw [fields_kept, toJson, ← List.append_nil r.fields.toEntries]
    exact ColumnMap.Readable.fields_append h (.refl [])
  exact congrArg InsertRequest.mk hfields

theorem accepted_toJson_iff : Accepted limit r.toJson ↔ r.Plain := by
  rw [Accepted, toJson, Json.rootAccepted_object_iff]
  exact ColumnMap.Readable.accepted_iff h fun _ _ => Iff.rfl

end Readable

end InsertRequest

namespace UpdateRequest

variable {r : UpdateRequest}

/-- A request that some document gives. -/
structure Readable (limit : Option Nat) (r : UpdateRequest) : Prop where
  fields : r.fields.Readable limit ["queryOptions"]
  selection : ∀ q ∈ r.selection, q.Readable limit

structure Plain (r : UpdateRequest) : Prop where
  fields : r.fields.Plain
  selection : ∀ q ∈ r.selection, q.Plain

/-- The entry for the reserved key. -/
def reservedEntries (r : UpdateRequest) : Entries Json :=
  .ofOption "queryOptions" (r.selection.map ReadRequest.toJson)

def toJson (r : UpdateRequest) : Json := .object (r.fields.toEntries ++ r.reservedEntries)

theorem readable_kept (hj : j.WellFormed) : (kept limit j).Readable limit := by
  have hassembles : Assembles limit j.entries (kept limit j) := assembles_kept hj.nodup_entries
  constructor
  · rw [fields_kept]
    exact ColumnMap.readable_ofList_fieldPairs hj
  · rw [hassembles.selection]
    intro q hq
    obtain ⟨i, hi, rfl⟩ := Option.map_eq_some_iff.mp hq
    obtain ⟨k, hk, hi⟩ := Option.bind_eq_some_iff.mp hi
    rw [← Json.eq_of_nonNull? hi]
    exact ReadRequest.readable_kept (hj.of_get?_entries hk)

theorem keys_reservedEntries_sublist : r.reservedEntries.keys.Sublist ["queryOptions"] :=
  Entries.keys_ofOption_sublist

namespace Readable

variable (h : r.Readable limit)

include h

theorem wellFormed_toJson : r.toJson.WellFormed := by
  refine h.fields.wellFormed_append (List.nodup_singleton _) keys_reservedEntries_sublist ?_
  refine Entries.forall_mem_ofOption_iff.mpr fun i hi => ?_
  obtain ⟨q, hq, rfl⟩ := Option.map_eq_some_iff.mp hi
  exact (h.selection q hq).wellFormed_toJson

theorem kept_toJson : kept limit r.toJson = r := by
  have hn := h.fields.nodup_append (List.nodup_singleton _) (@keys_reservedEntries_sublist r)
  have hassembles : Assembles limit _ (kept limit r.toJson) := assembles_kept hn
  have hfields : (kept limit r.toJson).fields = r.fields := by
    rw [fields_kept]
    exact h.fields.fields_append keys_reservedEntries_sublist
  have hselection : (kept limit r.toJson).selection = r.selection := by
    rw [hassembles.selection, h.fields.get?_append (List.mem_singleton_self _), reservedEntries,
      Entries.get?_ofOption_self]
    cases hq : r.selection with
    | none => rfl
    | some q => exact congrArg some (h.selection q hq).kept_toJson
  calc
    kept limit r.toJson = ⟨(kept limit r.toJson).fields, (kept limit r.toJson).selection⟩ := rfl
    _ = r := by rw [hfields, hselection]

theorem accepted_toJson_iff : Accepted limit r.toJson ↔ r.Plain := by
  have hfields : (∀ e ∈ r.fields.toEntries, EntryAccepted limit e) ↔ r.fields.Plain := by
    refine h.fields.accepted_iff fun e hk => ?_
    rw [EntryAccepted, if_neg (mt List.mem_singleton.mpr hk)]
  have hselection : (∀ i ∈ r.selection.map ReadRequest.toJson,
      EntryAccepted limit ("queryOptions", i)) ↔ ∀ q ∈ r.selection, q.Plain := by
    cases hq : r.selection with
    | none => simp
    | some q => simpa [EntryAccepted] using (h.selection q hq).accepted_toJson_iff
  rw [Accepted, toJson, Json.rootAccepted_object_iff, List.forall_mem_append, hfields,
    reservedEntries, Entries.forall_mem_ofOption_iff, hselection]
  constructor
  · rintro ⟨hf, hs⟩
    exact ⟨hf, hs⟩
  · rintro ⟨hf, hs⟩
    exact ⟨hf, hs⟩

end Readable

end UpdateRequest

end

namespace Reading

variable {α : Type} {mode : Mode} {ds : List Defect} {a : α}

/-- Which requests a reading gives, and a document that each of them is read from. -/
structure HasImage (read : Mode → Json → Reading α) (readable : α → Prop) (toJson : α → Json)
    (plain : α → Prop) : Prop where
  /-- The requests that some document gives. -/
  range : ∀ a, (∃ j, j.WellFormed ∧ (read .lenient j).result = .ok a) ↔ readable a
  wellFormed : ∀ a, readable a → (toJson a).WellFormed
  /-- The document of a request gives it back. -/
  reads : ∀ a, readable a → ∀ mode ≠ .strict, (read mode (toJson a)).result = .ok a
  /-- The strict mode takes it just if no object in it could have been meant as a comparison. -/
  strict : ∀ a, readable a → ((read .strict (toJson a)).result = .ok a ↔ plain a)
  /-- In the same case nothing is dropped in the other modes. -/
  silent : ∀ a, readable a → ∀ mode ≠ .strict, (read mode (toJson a)).events = [] ↔ plain a

theorem events_ofDefects_eq_nil_iff (h : mode ≠ .strict) :
    (ofDefects mode ds a).events = [] ↔ ds = [] := by
  cases mode with
  | strict => exact (h rfl).elim
  | _ => exact List.map_eq_nil_iff

theorem hasImage_of_defects {read : Mode → Json → Reading α} {readable plain : α → Prop}
    {toJson : α → Json} {met : Json → List Defect} {kept : Json → α}
    (read_eq : ∀ mode j, read mode j = ofDefects mode (met j) (kept j))
    (readable_kept : ∀ j, j.WellFormed → readable (kept j))
    (wellFormed : ∀ a, readable a → (toJson a).WellFormed)
    (kept_toJson : ∀ a, readable a → kept (toJson a) = a)
    (met_toJson : ∀ a, readable a → (met (toJson a) = [] ↔ plain a)) :
    HasImage read readable toJson plain := by
  have hreads : ∀ a, readable a → ∀ mode ≠ .strict, (read mode (toJson a)).result = .ok a := by
    intro a ha mode hmode
    rw [read_eq, ofDefects_eq_ok_iff]
    exact ⟨fun h => (hmode h).elim, kept_toJson a ha⟩
  constructor
  · intro a
    constructor
    · rintro ⟨j, hj, h⟩
      rw [read_eq, ofDefects_eq_ok_iff] at h
      exact h.2 ▸ readable_kept j hj
    · intro ha
      exact ⟨toJson a, wellFormed a ha, hreads a ha .lenient (by decide)⟩
  · exact wellFormed
  · exact hreads
  · intro a ha
    rw [read_eq, ofDefects_eq_ok_iff, kept_toJson a ha, ← met_toJson a ha]
    simp
  · intro a ha mode hmode
    rw [read_eq, events_ofDefects_eq_nil_iff hmode]
    exact met_toJson a ha

/-- Each request that some document gives is given by a document of its own. -/
theorem requests_haveImage (limit : Option Nat) :
    HasImage (fun mode => ReadRequest.ofJson ⟨mode, limit⟩) (ReadRequest.Readable limit)
        ReadRequest.toJson ReadRequest.Plain ∧
      HasImage (fun mode => InsertRequest.ofJson ⟨mode, limit⟩) (InsertRequest.Readable limit)
        InsertRequest.toJson InsertRequest.Plain ∧
      HasImage (fun mode => UpdateRequest.ofJson ⟨mode, limit⟩) (UpdateRequest.Readable limit)
        UpdateRequest.toJson UpdateRequest.Plain := by
  refine ⟨?_, ?_, ?_⟩
  · refine hasImage_of_defects (fun _ => ReadRequest.read_eq)
      (fun _ => ReadRequest.readable_kept) (fun _ h => h.wellFormed_toJson)
      (fun _ h => h.kept_toJson) fun r h => ?_
    exact (ReadRequest.diagnoses_met limit none r.toJson).nil_iff.trans h.accepted_toJson_iff
  · refine hasImage_of_defects (fun _ => InsertRequest.ofJson_eq)
      (fun _ => InsertRequest.readable_kept) (fun _ h => h.wellFormed_toJson)
      (fun _ h => h.kept_toJson) fun r h => ?_
    exact (InsertRequest.diagnoses_met limit r.toJson).nil_iff.trans h.accepted_toJson_iff
  · refine hasImage_of_defects (fun _ => UpdateRequest.ofJson_eq)
      (fun _ => UpdateRequest.readable_kept) (fun _ h => h.wellFormed_toJson)
      (fun _ h => h.kept_toJson) fun r h => ?_
    exact (UpdateRequest.diagnoses_met limit r.toJson).nil_iff.trans h.accepted_toJson_iff

/-- An order without terms is not the same as no order, and it is kept. -/
example :
    let r : ReadRequest := { fields := .ofList [("id", .list [])], order := some (.terms []) }
    (ReadRequest.ofJson ⟨.strict, some 0⟩ r.toJson).result = .ok r := rfl

end Reading

end Criteria
