import Criteria.Proofs.Json.Positions
import Criteria.Proofs.Path
import Criteria.Proofs.Reading.Fields

/-! What a limit of depth does: a value is kept whole or dropped whole. -/
namespace Criteria

theorem Fits.some_iff {limit n : Nat} : Fits (some limit) n ↔ n ≤ limit := by
  simp [Fits]

namespace Json

variable {limit : Nat} {path : Path} {depth : Nat} {j : Json}

open Position (Shallow reported)

theorem reported_of_tooDeep (h : limit < depth) :
    reported limit (j.positions path depth) = [⟨path, .tooDeep⟩] := by
  have hdepth : ¬depth ≤ limit := Nat.not_le.mpr h
  rw [positions.eq_def]
  simp only [reported]
  rw [if_neg hdepth]

/-- In a shallow value all that is wrong is its conditions. -/
theorem defects_of_shallow (h : depth + j.nesting ≤ limit)
    (hmet : Defect.met (j.defects (some limit) path depth) =
      reported limit (j.positions path depth)) :
    j.defects (some limit) path depth = (j.positions path depth).filterMap Position.defect? := by
  have hdeep := (defects_tooDeep_iff j path depth).mpr (Fits.some_iff.mpr h)
  have hshallow := (shallow_positions_iff j path depth).mpr h
  rwa [Defect.met_eq_self hdeep, Position.reported_of_shallow hshallow] at hmet

theorem met_itemDefects {js : List Json}
    (h : ∀ j ∈ js, ∀ path depth, Defect.met (j.defects (some limit) path depth) =
      reported limit (j.positions path depth)) (i : Nat) :
    Defect.met (itemDefects (some limit) path depth i js) =
      reported limit (itemPositions path depth i js) := by
  induction js generalizing i with
  | nil => rfl
  | cons j js ih =>
    have hj := h j List.mem_cons_self (path.item i) (depth + 1)
    have hjs := ih (fun j hj => h j (List.mem_cons_of_mem _ hj)) (i + 1)
    have hdeep : (∀ d ∈ j.defects (some limit) (path.item i) (depth + 1), d.reason ≠ .tooDeep) ↔
        Fits (some limit) (depth + 1 + j.nesting) := defects_tooDeep_iff j _ _
    have hshallow : Shallow limit (j.positions (path.item i) (depth + 1)) ↔
        depth + 1 + j.nesting ≤ limit := shallow_positions_iff j _ _
    rw [itemDefects, itemPositions]
    by_cases hfits : depth + 1 + j.nesting ≤ limit
    · rw [Defect.met_append (hdeep.mpr (Fits.some_iff.mpr hfits)), hjs,
        Position.reported_append (hshallow.mpr hfits), defects_of_shallow hfits hj]
    -- the item is given up, and with it those after it
    · rw [Defect.met_append_of_tooDeep (fun hd => hfits (Fits.some_iff.mp (hdeep.mp hd))), hj,
        Position.reported_append_of_not_shallow (fun hs => hfits (hshallow.mp hs))]

theorem met_defects_of_tooDeep (h : limit < depth) :
    Defect.met (j.defects (some limit) path depth) = reported limit (j.positions path depth) := by
  have hdepth : ¬Fits (some limit) depth := fun hf => Nat.not_le.mpr h (Fits.some_iff.mp hf)
  rw [defects_of_not_fits hdepth, reported_of_tooDeep h]
  rfl

/-- A reading meets what is reported of the positions. -/
theorem met_defects (j : Json) : ∀ (path : Path) (depth : Nat),
    Defect.met (j.defects (some limit) path depth) = reported limit (j.positions path depth) := by
  induction j using Json.induction with
  | null | bool _ | number _ | string _ =>
    intro path depth
    rcases Nat.lt_or_ge limit depth with hd | hd
    · exact met_defects_of_tooDeep hd
    · simp only [defects, positions, if_pos (Fits.some_iff.mpr hd), reported, if_pos hd]
      rfl
  | array js ih =>
    intro path depth
    rcases Nat.lt_or_ge limit depth with hd | hd
    · exact met_defects_of_tooDeep hd
    · rw [defects_array (Fits.some_iff.mpr hd), met_itemDefects ih, positions, reported, if_pos hd]
      rfl
  | object es ih =>
    intro path depth
    rcases Nat.lt_or_ge limit depth with hd | hd
    · exact met_defects_of_tooDeep hd
    · rw [defects_object (Fits.some_iff.mpr hd), positions_object, reported, if_pos hd,
        Position.defect?]
      cases hc : (Json.object es).condition? with
      | none => rfl
      | some c =>
        obtain ⟨operator, operand⟩ := c
        cases operator with
        | string o => exact ih _ (operand_mem hc) _ _
        | _ => rfl

end Json

open Json (Position)

/-- The readings of one value under all limits, in a mode that reports at the given level. -/
structure LimitsDepth (level : Level) (path : Path) (j : Json)
    (x : Nat → Reading (Option Value)) : Prop where
  /-- What fits is kept as if there were no limit. -/
  kept : ∀ limit, j.nesting ≤ limit → x limit =
    ⟨((j.positions path 0).filterMap Position.defect?).map (⟨level, ·⟩), .ok (some (.ofJson j))⟩
  /-- Anything else is dropped at the first position that lies too deep. -/
  dropped : ∀ limit, limit < j.nesting → ∃ before p after,
    j.positions path 0 = before ++ p :: after ∧ Position.Shallow limit before ∧ limit < p.depth ∧
      x limit = ⟨(before.filterMap Position.defect? ++ [Defect.mk p.path .tooDeep]).map
        (⟨level, ·⟩), .ok none⟩
  /-- An event names its position by a text that spells it out. -/
  spelled : ∀ limit, ∀ e ∈ (x limit).events, e.defect.path.Spelled e.defect.path.text.toList
  raised : ∀ limit limit' v, limit ≤ limit' → (x limit).result = .ok (some v) →
    (x limit').result = .ok (some v)

/-- A field that is kept under a limit is kept as it is under any higher one. -/
def RaisesFields {β : Type} (fields : β → ColumnMap) (x : Nat → Reading β) : Prop :=
  ∀ limit limit' r, limit ≤ limit' → (x limit).result = .ok r → ∃ r', (x limit').result = .ok r' ∧
    ∀ k v, (fields r).get? k = some v → (fields r').get? k = some v

/-- Every request that is read from a document keeps its fields under higher limits. -/
def RequestsRaised (j : Json) : Prop :=
  j.entries.keys.Nodup → ∀ mode ≠ .strict,
    (∀ base, RaisesFields ReadRequest.fields
      fun limit => ReadRequest.read ⟨mode, some limit⟩ base j) ∧
    (RaisesFields InsertRequest.fields fun limit => InsertRequest.ofJson ⟨mode, some limit⟩ j) ∧
    RaisesFields UpdateRequest.fields fun limit => UpdateRequest.ofJson ⟨mode, some limit⟩ j

section

variable {limit limit' : Nat} {path : Path} {j : Json} {v : Value} {mode : Mode} {level : Level}

theorem Value.ofJson?_raised (hle : limit ≤ limit') (h : ofJson? (some limit) 0 j = some v) :
    ofJson? (some limit') 0 j = some v := by
  rw [ofJson?_eq_some_iff, Fits.some_iff] at h ⊢
  exact ⟨h.1.trans hle, h.2⟩

theorem limitsDepth_of {x : Nat → Reading (Option Value)} (hx : ∀ limit, x limit =
      ⟨(Defect.met (j.defects (some limit) path 0)).map (⟨level, ·⟩),
        .ok (Value.ofJson? (some limit) 0 j)⟩) : LimitsDepth level path j x := by
  have hzero : 0 + j.nesting = j.nesting := Nat.zero_add _
  constructor
  · intro limit h
    have hshallow := (Json.shallow_positions_iff j path 0).mpr (hzero.trans_le h)
    have hvalue : Value.ofJson? (some limit) 0 j = some (.ofJson j) :=
      Value.ofJson?_eq_some_iff.mpr ⟨Fits.some_iff.mpr h, rfl⟩
    rw [hx, Json.met_defects, Position.reported_of_shallow hshallow, hvalue]
  · intro limit h
    have hdeep : ¬Position.Shallow limit (j.positions path 0) := by
      rw [Json.shallow_positions_iff, hzero]
      exact Nat.not_le.mpr h
    have hvalue : Value.ofJson? (some limit) 0 j = none := by
      rw [Value.ofJson?, hzero, if_neg fun hf => Nat.not_le.mpr h (Fits.some_iff.mp hf)]
    obtain ⟨before, p, after, hsplit, hbefore, hp⟩ := Position.exists_first_of_not_shallow hdeep
    refine ⟨before, p, after, hsplit, hbefore, hp, ?_⟩
    rw [hx, Json.met_defects, hsplit, Position.reported_of_first hbefore hp, hvalue]
  · intro limit e _
    exact e.defect.path.spelled_text
  · intro limit limit' v hle h
    rw [hx] at h ⊢
    exact congrArg _ (Value.ofJson?_raised hle (Except.ok.inj h))

theorem get?_fields_raised {reserved : List String} {es : Entries Json} {k : String}
    (hn : es.keys.Nodup) (hle : limit ≤ limit')
    (h : (ColumnMap.ofList (fieldPairs (some limit) reserved es)).get? k = some v) :
    (ColumnMap.ofList (fieldPairs (some limit') reserved es)).get? k = some v := by
  rw [ColumnMap.get?, ColumnMap.entries_ofList (nodup_fieldPairs hn),
    Entries.get?_eq_some_iff_mem (nodup_fieldPairs hn), mem_fieldPairs_iff] at h ⊢
  obtain ⟨j, hj, hk, hv⟩ := h
  exact ⟨j, hj, hk, Value.ofJson?_raised hle hv⟩

theorem raisesFields_of {β : Type} {fields : β → ColumnMap} {reserved : List String}
    {x : Nat → Reading β} {met : Nat → List Defect} {kept : Nat → β}
    (hmode : mode ≠ .strict) (hn : j.entries.keys.Nodup)
    (hx : ∀ limit, x limit = Reading.ofDefects mode (met limit) (kept limit))
    (hfields : ∀ limit,
      fields (kept limit) = .ofList (fieldPairs (some limit) reserved j.entries)) :
    RaisesFields fields x := by
  intro limit limit' r hle h
  rw [hx, Reading.ofDefects_eq_ok_iff] at h
  obtain ⟨-, rfl⟩ := h
  refine ⟨kept limit', ?_, ?_⟩
  · rw [hx, Reading.ofDefects_eq_ok_iff]
    exact ⟨fun h => (hmode h).elim, rfl⟩
  · intro k v hk
    rw [hfields] at hk ⊢
    exact get?_fields_raised hn hle hk

/-- In the modes that drop, a limit of depth takes a value whole or not at all, and a higher limit
takes nothing away. -/
theorem read_limitsDepth (j : Json) :
    (∀ path, LimitsDepth .debug path j fun limit => Value.read ⟨.lenient, some limit⟩ path 0 j) ∧
      (∀ path, LimitsDepth .warn path j fun limit => Value.read ⟨.warning, some limit⟩ path 0 j) ∧
      RequestsRaised j := by
  refine ⟨?_, ?_, ?_⟩
  · intro path
    exact limitsDepth_of fun limit => Value.read_eq j path 0
  · intro path
    exact limitsDepth_of fun limit => Value.read_eq j path 0
  · intro hn mode hmode
    refine ⟨fun base => ?_, ?_, ?_⟩
    · exact raisesFields_of hmode hn (fun _ => ReadRequest.read_eq j)
        fun _ => ReadRequest.fields_kept j
    · exact raisesFields_of hmode hn (fun _ => InsertRequest.ofJson_eq j)
        fun _ => InsertRequest.fields_kept j
    · exact raisesFields_of hmode hn (fun _ => UpdateRequest.ofJson_eq j)
        fun _ => UpdateRequest.fields_kept j

/-- The operator is met before the item that lies too deep, and nothing after it. -/
example : (Value.read ⟨.warning, some 1⟩ (.key "tags") 0 (.array [.object [("operator", .null),
    ("value", .null)], .array [.null, .array []], .array [.array []]])).events.map
      (·.defect.path.text) = ["tags[0].operator", "tags[1][0]"] := rfl

end

end Criteria
