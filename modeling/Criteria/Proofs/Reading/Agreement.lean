import Criteria.Proofs.Json.Within
import Criteria.Proofs.Reading.Parts

/-! The readings of the three requests, side by side. -/
namespace Criteria

open Reading (ofDefects ofDefects_nil ofDefects_bind ofDefects_bind_pure ofDefects_eq_ok_iff)

theorem Defect.reason_within (d : Defect) (base : Path) : (d.within base).reason = d.reason := rfl

theorem Defect.map_within_met {ds : List Defect} {base : Path} :
    (met ds).map (·.within base) = met (ds.map (·.within base)) := by
  induction ds with
  | nil => rfl
  | cons d ds ih =>
    rw [List.map_cons, met, met, reason_within]
    by_cases hd : d.reason = .tooDeep
    · rw [if_pos hd, if_pos hd]
      rfl
    · rw [if_neg hd, if_neg hd, List.map_cons, ih]

theorem Defect.mem_of_mem_met {ds : List Defect} {d : Defect} (h : d ∈ met ds) : d ∈ ds := by
  induction ds with
  | nil => exact h
  | cons e ds ih =>
    rw [met] at h
    split at h
    · exact List.mem_of_mem_head? (by simpa using (List.mem_singleton.mp h).symm)
    · rcases List.mem_cons.mp h with rfl | h
      · exact List.mem_cons_self
      · exact List.mem_cons_of_mem e (ih h)

def Error.within : Error → Path → Error
  | malformed d, base => malformed (d.within base)
  | invalid text, _ => invalid text

namespace Reading

variable {α β γ : Type} {mode : Mode} {ds es : List Defect} {a : α} {b : β} {base p : Path}

/-- The reading of a document that stands at `base`. -/
def within (x : Reading α) (base : Path) : Reading α :=
  ⟨x.events.map fun e => ⟨e.level, e.defect.within base⟩, x.result.mapError (·.within base)⟩

/-- The places that a reading names. -/
def paths (x : Reading α) : List Path :=
  x.events.map (·.defect.path) ++
    match x.result with
    | .error (.malformed d) => [d.path]
    | _ => []

/-- Two readings meet the same, whatever they give. -/
structure Reports (x : Reading α) (y : Reading β) : Prop where
  events : x.events = y.events
  error_iff : ∀ e, x.result = .error e ↔ y.result = .error e

theorem within_ofDefects :
    (ofDefects mode ds a).within base = ofDefects mode (ds.map (·.within base)) a := by
  cases mode with
  | lenient => simp [within, ofDefects, Except.mapError]
  | warning => simp [within, ofDefects, Except.mapError]
  | strict => cases ds <;> rfl

theorem exists_of_mem_paths_ofDefects (h : p ∈ (ofDefects mode ds a).paths) :
    ∃ d ∈ ds, d.path = p := by
  cases mode with
  | lenient => simpa [paths, ofDefects] using h
  | warning => simpa [paths, ofDefects] using h
  | strict =>
    cases ds with
    | nil => cases h
    | cons d ds => exact ⟨d, List.mem_cons_self, (List.mem_singleton.mp h).symm⟩

theorem reports_ofDefects : (ofDefects mode ds a).Reports (ofDefects mode ds b) := by
  cases mode with
  | lenient => constructor <;> simp [ofDefects]
  | warning => constructor <;> simp [ofDefects]
  | strict => cases ds <;> constructor <;> simp [ofDefects]

theorem reports_ofDefects_bind {c : γ} {f : α → Reading β} (hf : f a = ofDefects mode es b) :
    (ofDefects mode (ds ++ es) c).Reports (ofDefects mode ds a >>= f) := by
  rw [ofDefects_bind hf]
  exact reports_ofDefects

theorem map_ofDefects (f : α → β) : f <$> ofDefects mode ds a = ofDefects mode ds (f a) := by
  rw [map_eq_pure_bind]
  exact ofDefects_bind_pure rfl

end Reading

section

variable {mode : Mode} {limit : Option Nat} {base : Path} {es : Entries Json} {q : Json}

/-- Where all entries are fields, nothing but fields is put together. -/
theorem foldl_of_fields {β : Type} (mk : ColumnMap → β) {f : β → String × Json → β}
    (h : ∀ e ∈ es, ∀ m, f (mk m) e = mk (m.insert? e.1 (Value.ofJson? limit 0 e.2)))
    (m : ColumnMap) : es.foldl f (mk m) =
      mk (es.foldl (fun m e => m.insert? e.1 (Value.ofJson? limit 0 e.2)) m) := by
  induction es generalizing m with
  | nil => rfl
  | cons e es ih =>
    obtain ⟨he, hes⟩ := List.forall_mem_cons.mp h
    rw [List.foldl_cons, List.foldl_cons, he, ih hes]

namespace ReadRequest

theorem map_within_metDefects (j : Json) :
    (metDefects limit none j).map (·.within base) = metDefects limit (some base) j := by
  rw [metDefects, Json.map_within_rootDefects]
  simp only [Defect.map_within_met, map_within_entryDefects]
  rfl

/-- A request is read alike wherever it stands, save that its place comes first in all places. -/
theorem read_within (policy : Policy) (j : Json) :
    read policy (some base) j = (ofJson policy j).within base := by
  rw [ofJson, read_eq, read_eq, Reading.within_ofDefects, map_within_metDefects]

theorem text_within_of_mem_paths {policy : Policy} {p : Path}
    (h : p ∈ (ofJson policy (.object es)).paths) :
    (p.within base).text = base.text ++ "." ++ p.text := by
  rw [ofJson, read_eq] at h
  obtain ⟨d, hd, rfl⟩ := Reading.exists_of_mem_paths_ofDefects h
  obtain ⟨e, -, hd⟩ := List.mem_flatMap.mp hd
  exact Path.text_within (isInner_of_mem_entryDefects (Defect.mem_of_mem_met hd))

theorem eq_root_of_mem_paths {policy : Policy} {p : Path} (null : q ≠ .null)
    (object : ∀ es, q ≠ .object es) (h : p ∈ (ofJson policy q).paths) : p = .root := by
  have hmet : metDefects policy.maxDepth none q = [⟨.root, .notObject⟩] := by
    cases q with
    | null => exact (null rfl).elim
    | object es => exact (object es rfl).elim
    | _ => rfl
  rw [ofJson, read_eq, hmet] at h
  obtain ⟨d, hd, rfl⟩ := Reading.exists_of_mem_paths_ofDefects h
  rw [List.mem_singleton.mp hd]

theorem kept_of_not_reserved (h : ∀ e ∈ es, e.1 ∉ reserved) :
    kept limit (.object es) = { fields := (InsertRequest.kept limit (.object es)).fields } := by
  have hput : ∀ e ∈ es, ∀ m : ColumnMap, put limit { fields := m } e =
      { fields := m.insert? e.1 (Value.ofJson? limit 0 e.2) } := by
    intro e he m
    have hk := h e he
    simp only [reserved, List.mem_cons, List.not_mem_nil, or_false, not_or] at hk
    obtain ⟨ho, hl, hf⟩ := hk
    rw [put, if_neg ho, if_neg hl, if_neg hf]
  exact foldl_of_fields (fun m => ({ fields := m } : ReadRequest)) hput ∅

theorem metDefects_of_not_reserved (h : ∀ e ∈ es, e.1 ∉ reserved) :
    metDefects limit none (.object es) = InsertRequest.metDefects limit (.object es) := by
  refine List.flatMap_congr fun e he => ?_
  rw [entryDefects, if_neg (ne_orderBy_of_not_reserved (h e he))]
  rfl

end ReadRequest

namespace UpdateRequest

theorem kept_of_not_mem (h : "queryOptions" ∉ es.keys) :
    kept limit (.object es) = { fields := (InsertRequest.kept limit (.object es)).fields } := by
  have hput : ∀ e ∈ es, ∀ m : ColumnMap, put limit { fields := m } e =
      { fields := m.insert? e.1 (Value.ofJson? limit 0 e.2) } := by
    intro e he m
    have hq : e.1 ≠ "queryOptions" := fun hq => h (hq ▸ List.mem_map_of_mem he)
    rw [put, if_neg hq]
  exact foldl_of_fields (fun m => ({ fields := m } : UpdateRequest)) hput ∅

theorem metDefects_of_not_mem (h : "queryOptions" ∉ es.keys) :
    metDefects limit (.object es) = InsertRequest.metDefects limit (.object es) := by
  refine List.flatMap_congr fun e he => ?_
  have hq : e.1 ≠ "queryOptions" := fun hq => h (hq ▸ List.mem_map_of_mem he)
  rw [metEntryDefects, if_neg hq]

theorem metDefects_append {before after : Entries Json}
    (h : (Entries.keys (before ++ ("queryOptions", q) :: after)).Nodup) :
    metDefects limit (.object (before ++ ("queryOptions", q) :: after)) =
      InsertRequest.metDefects limit (.object before) ++
        (ReadRequest.metDefects limit (some (.key "queryOptions")) q ++
          InsertRequest.metDefects limit (.object after)) := by
  rw [Entries.keys, List.map_append, List.map_cons, List.nodup_append, List.nodup_cons] at h
  obtain ⟨-, ⟨hafter, -⟩, hbefore⟩ := h
  have hnot : "queryOptions" ∉ Entries.keys before :=
    fun hk => hbefore _ hk _ List.mem_cons_self rfl
  rw [← metDefects_of_not_mem hnot, ← metDefects_of_not_mem hafter]
  exact List.flatMap_append

/-- The defects of the selection are met where its key stands. -/
theorem reports_ofJson {before after : Entries Json}
    (h : (Entries.keys (before ++ ("queryOptions", q) :: after)).Nodup) (policy : Policy) :
    (ofJson policy (.object (before ++ ("queryOptions", q) :: after))).Reports (do
      let _ ← InsertRequest.ofJson policy (.object before)
      let _ ← (ReadRequest.ofJson policy q).within (.key "queryOptions")
      InsertRequest.ofJson policy (.object after)) := by
  obtain ⟨mode, limit⟩ := policy
  have hrest : (do
      let _ ← (ReadRequest.ofJson ⟨mode, limit⟩ q).within (.key "queryOptions")
      InsertRequest.ofJson ⟨mode, limit⟩ (.object after)) =
        ofDefects mode (ReadRequest.metDefects limit (some (.key "queryOptions")) q ++
          InsertRequest.metDefects limit (.object after))
          (InsertRequest.kept limit (.object after)) := by
    rw [← ReadRequest.read_within, ReadRequest.read_eq]
    exact ofDefects_bind (InsertRequest.ofJson_eq _)
  rw [ofJson_eq, metDefects_append h, InsertRequest.ofJson_eq]
  exact Reading.reports_ofDefects_bind hrest

theorem ofJson_object_eq_ok_iff {r : UpdateRequest} :
    (ofJson ⟨mode, limit⟩ (.object es)).result = .ok r ↔
      (mode = .strict → ∀ e ∈ es, metEntryDefects limit e = []) ∧ kept limit (.object es) = r := by
  rw [ofJson_eq, ofDefects_eq_ok_iff]
  simp only [metDefects, Json.rootDefects, List.flatMap_eq_nil_iff]

theorem fields_eq_insert (hn : es.keys.Nodup) {r : UpdateRequest} {policy : Policy}
    (h : (ofJson policy (.object es)).result = .ok r) :
    ∃ i, (InsertRequest.ofJson policy (.object (es.erase "queryOptions"))).result = .ok i ∧
      r.fields = i.fields := by
  obtain ⟨hmet, rfl⟩ := ofJson_object_eq_ok_iff.mp h
  have herase : es.erase "queryOptions" = es.filter fun e => e.1 ≠ "queryOptions" :=
    Entries.erase_eq_filter hn
  refine ⟨InsertRequest.kept policy.maxDepth (.object (es.erase "queryOptions")), ?_, ?_⟩
  · rw [InsertRequest.ofJson_eq, ofDefects_eq_ok_iff]
    refine ⟨fun hs => List.flatMap_eq_nil_iff.mpr fun e he => ?_, rfl⟩
    rw [herase, List.mem_filter] at he
    have hq : e.1 ≠ "queryOptions" := of_decide_eq_true he.2
    have hnone := hmet hs e he.1
    rwa [metEntryDefects, if_neg hq] at hnone
  · refine ColumnMap.eq_of_entries ?_
    rw [(assembles_kept hn).fields, InsertRequest.entries_kept (Entries.nodup_erase hn), herase,
      List.filter_filter]
    simp only [Bool.decide_and, Bool.and_comm]

theorem selection_eq_read (hn : es.keys.Nodup) {r : UpdateRequest} {policy : Policy}
    (h : (ofJson policy (.object es)).result = .ok r) :
    Option.Rel (fun q s => (ReadRequest.ofJson policy q).result = .ok s)
      ((es.get? "queryOptions").bind Json.nonNull?) r.selection := by
  obtain ⟨hmet, rfl⟩ := ofJson_object_eq_ok_iff.mp h
  rw [(assembles_kept hn).selection]
  cases hq : es.get? "queryOptions" with
  | none => exact .none
  | some q =>
    have hmem := (Entries.get?_eq_some_iff_mem hn).mp hq
    have hread : (ReadRequest.ofJson policy q).result =
        .ok (ReadRequest.kept policy.maxDepth q) := by
      rw [ReadRequest.ofJson, ReadRequest.read_eq, ofDefects_eq_ok_iff]
      refine ⟨fun hs => ?_, rfl⟩
      have hnone := hmet hs _ hmem
      rw [metEntryDefects, if_pos rfl, ← ReadRequest.map_within_metDefects] at hnone
      exact List.map_eq_nil_iff.mp hnone
    cases q with
    | null => exact .none
    | _ => exact .some hread

end UpdateRequest

theorem ReadRequest.ofJson_eq_insert (h : ∀ e ∈ es, e.1 ∉ reserved) (policy : Policy) :
    ofJson policy (.object es) =
      (fun r => { fields := r.fields }) <$> InsertRequest.ofJson policy (.object es) := by
  rw [ofJson, read_eq, InsertRequest.ofJson_eq, Reading.map_ofDefects, kept_of_not_reserved h,
    metDefects_of_not_reserved h]

theorem UpdateRequest.ofJson_eq_insert (h : "queryOptions" ∉ es.keys) (policy : Policy) :
    ofJson policy (.object es) =
      (fun r => { fields := r.fields }) <$> InsertRequest.ofJson policy (.object es) := by
  rw [ofJson_eq, InsertRequest.ofJson_eq, Reading.map_ofDefects, kept_of_not_mem h,
    metDefects_of_not_mem h]

end

namespace Reading

/-- What the readings of an object as one request and another have in common. -/
structure RequestsAgree (policy : Policy) (es : Entries Json) : Prop where
  /-- Where no key is reserved all entries are fields. -/
  read : (∀ k ∈ es.keys, k ∉ ReadRequest.reserved) → ReadRequest.ofJson policy (.object es) =
    (fun r => { fields := r.fields }) <$> InsertRequest.ofJson policy (.object es)
  update : "queryOptions" ∉ es.keys → UpdateRequest.ofJson policy (.object es) =
    (fun r => { fields := r.fields }) <$> InsertRequest.ofJson policy (.object es)
  fields : ∀ r, (UpdateRequest.ofJson policy (.object es)).result = .ok r →
    ∃ i, (InsertRequest.ofJson policy (.object (es.erase "queryOptions"))).result = .ok i ∧
      r.fields = i.fields
  selection : ∀ r, (UpdateRequest.ofJson policy (.object es)).result = .ok r →
    Option.Rel (fun q s => (ReadRequest.ofJson policy q).result = .ok s)
      ((es.get? "queryOptions").bind Json.nonNull?) r.selection
  /-- What is wrong with the selection is met where its key stands. -/
  reports : ∀ before q after, es = before ++ ("queryOptions", q) :: after →
    (UpdateRequest.ofJson policy (.object es)).Reports (do
      let _ ← InsertRequest.ofJson policy (.object before)
      let _ ← (ReadRequest.ofJson policy q).within (.key "queryOptions")
      InsertRequest.ofJson policy (.object after))
  text_object : ∀ qs, ∀ p ∈ (ReadRequest.ofJson policy (.object qs)).paths,
    (p.within (.key "queryOptions")).text = "queryOptions." ++ p.text
  text_other : ∀ q, q ≠ .null → (∀ qs, q ≠ .object qs) →
    ∀ p ∈ (ReadRequest.ofJson policy q).paths, (p.within (.key "queryOptions")).text = "queryOptions"

/-- The three requests are read alike, whatever the policy. -/
theorem requests_agree (policy : Policy) (es : Entries Json) (hn : es.keys.Nodup) :
    RequestsAgree policy es := by
  constructor
  · intro h
    exact ReadRequest.ofJson_eq_insert (fun e he => h e.1 (List.mem_map_of_mem he)) policy
  · intro h
    exact UpdateRequest.ofJson_eq_insert h policy
  · intro r h
    exact UpdateRequest.fields_eq_insert hn h
  · intro r h
    exact UpdateRequest.selection_eq_read hn h
  · rintro before q after rfl
    exact UpdateRequest.reports_ofJson hn policy
  · intro qs p hp
    exact ReadRequest.text_within_of_mem_paths hp
  · intro q null object p hp
    rw [ReadRequest.eq_root_of_mem_paths null object hp]
    rfl

/-- Here a field and the selection are malformed, and the selection comes first. -/
theorem requests_agree_selection :
    let es : Entries Json := [("name", .string "a"),
      ("queryOptions", .object [("limit", .array [.null]), ("orderBy", .bool true)]),
      ("tags", .array [.array []])]
    es.keys.Nodup ∧ RequestsAgree ⟨.warning, some 0⟩ es ∧
      (UpdateRequest.ofJson ⟨.warning, some 0⟩ (.object es)).events.map (·.defect.path.text) =
        ["queryOptions.limit[0]", "queryOptions.orderBy", "tags[0]"] := by
  intro es
  have hn : es.keys.Nodup := by decide
  exact ⟨hn, requests_agree _ es hn, rfl⟩

end Reading

end Criteria
