import Criteria.Proofs.Json.Grammar
import Criteria.Proofs.Numeric.Rounding
import Criteria.Proofs.Reading.Outcomes
import Criteria.Proofs.Value.RoundTrip

/-! Which values come from JSON, and which JSON is met with nothing to drop. -/
namespace Criteria.Value

variable {limit : Option Nat} {path : Path} {depth : Nat} {v w : Value} {j : Json}
  {es : Entries Json}

mutual

/-- How many lists and comparisons lie around the innermost part. -/
def nesting : Value → Nat
  | comparison _ v => nesting v + 1
  | list vs => itemNesting vs
  | _ => 0

def itemNesting : List Value → Nat
  | [] => 0
  | v :: vs => max (nesting v + 1) (itemNesting vs)

end

/-- An object with the keys of a comparison. -/
def ConditionShaped : Value → Prop
  | .object es => (Entries.keys es).Perm ["operator", "value"]
  | _ => False

/-- No object is there that could have been meant as a comparison. -/
def Plain (v : Value) : Prop := ∀ w, v.Holds w → ¬w.ConditionShaped

/-- A value that some JSON is read as. -/
structure Readable (limit : Option Nat) (v : Value) : Prop where
  wellFormed : v.WellFormed
  canonical : v.Canonical
  fits : Fits limit v.nesting

/-- What is lossy as an object is a comparison as JSON. -/
theorem lossy_object_iff : (object es).Lossy ↔
    ∃ o operand, (Json.object es).condition? = some (.string o, operand) := by
  constructor
  · rintro ⟨hk, o, ho⟩
    cases hc : (Json.object es).condition? with
    | none => exact (Json.condition?_eq_none_iff.mp hc hk).elim
    | some c =>
      obtain ⟨operator, operand⟩ := c
      have hoperator := (Json.condition?_eq_some_iff.mp hc).2.1
      rw [Option.some.inj (hoperator.symm.trans ho)]
      exact ⟨o, operand, rfl⟩
  · rintro ⟨o, operand, hc⟩
    obtain ⟨hk, ho, -⟩ := Json.condition?_eq_some_iff.mp hc
    exact ⟨hk, o, ho⟩

theorem ofJson_object_of_condition {o : String} {operand : Json}
    (hc : (Json.object es).condition? = some (.string o, operand)) :
    ofJson (.object es) = .comparison o (ofJson operand) := by
  rw [ofJson_object, hc]
  rfl

theorem nesting_object_of_not_lossy (h : ¬(object es).Lossy) : (Json.object es).nesting = 0 := by
  rw [Json.nesting_object]
  cases hc : (Json.object es).condition? with
  | none => rfl
  | some c =>
    obtain ⟨operator, operand⟩ := c
    cases operator with
    | string o => exact (h (lossy_object_iff.mpr ⟨o, operand, hc⟩)).elim
    | _ => rfl

/-- A number is read as an integer or as a finite float. -/
theorem ofJson_number (n : Json.Number) : (∃ k, ofJson (.number n) = .int k) ∨
    ∃ x, x.isFinite = true ∧ ofJson (.number n) = .float x := by
  have hread : ofJson (.number n) = ofNumber n := rfl
  rw [hread]
  cases n with
  | int n bounded =>
    rw [ofNumber]
    split
    · exact .inl ⟨_, rfl⟩
    · rename_i hn
      exact .inr ⟨_, Binary64.isFinite_ofInt (not_lt.mp hn) bounded.2, rfl⟩
  | float x finite => exact .inr ⟨x, finite, rfl⟩

/-- What is read from JSON is never lossy. -/
theorem canonical_ofJson (j : Json) : (ofJson j).Canonical := by
  rw [Canonical]
  induction j using Json.induction with
  | null | bool _ | string _ => exact (forall_holds_iff rfl rfl).mpr id
  | number n =>
    obtain ⟨k, hn⟩ | ⟨x, hx, hn⟩ := ofJson_number n
    · rw [hn]
      exact (forall_holds_iff rfl rfl).mpr id
    · rw [hn]
      exact (forall_holds_iff rfl rfl).mpr (by simp [Lossy, hx])
  | array js ih =>
    rw [ofJson_array, forall_holds_list_iff id]
    exact List.forall_mem_map.mpr ih
  | object es ih =>
    by_cases hlossy : (object es).Lossy
    · obtain ⟨o, operand, hc⟩ := lossy_object_iff.mp hlossy
      rw [ofJson_object_of_condition hc, forall_holds_comparison_iff id]
      exact ih _ (Json.operand_mem hc)
    · rw [ofJson_object_eq_iff.mpr hlossy]
      exact (forall_holds_iff rfl rfl).mpr hlossy

/-- Only null is read as null. -/
theorem ofJson_ne_null (h : j ≠ .null) : ofJson j ≠ .null := by
  cases j with
  | null => exact (h rfl).elim
  | bool b | string s => exact Value.noConfusion
  | number n => obtain ⟨k, hn⟩ | ⟨x, -, hn⟩ := ofJson_number n <;> simp [hn]
  | array js =>
    rw [ofJson_array]
    exact Value.noConfusion
  | object es =>
    by_cases hlossy : (object es).Lossy
    · obtain ⟨o, operand, hc⟩ := lossy_object_iff.mp hlossy
      rw [ofJson_object_of_condition hc]
      exact Value.noConfusion
    · rw [ofJson_object_eq_iff.mpr hlossy]
      exact Value.noConfusion

/-- Reading keeps the depth. -/
theorem nesting_ofJson (j : Json) : (ofJson j).nesting = j.nesting := by
  induction j using Json.induction with
  | null | bool _ | string _ => rfl
  | number n =>
    obtain ⟨k, hn⟩ | ⟨x, -, hn⟩ := ofJson_number n <;> rw [hn] <;> rfl
  | array js ih =>
    have hitems : itemNesting (js.map ofJson) = Json.itemNesting js := by
      induction js with
      | nil => rfl
      | cons j js ihs =>
        obtain ⟨hj, hjs⟩ := List.forall_mem_cons.mp ih
        rw [List.map_cons, itemNesting, Json.itemNesting, hj, ihs hjs]
    rw [ofJson_array, nesting, Json.nesting, hitems]
  | object es ih =>
    by_cases hlossy : (object es).Lossy
    · obtain ⟨o, operand, hc⟩ := lossy_object_iff.mp hlossy
      have hoperand := ih _ (Json.operand_mem hc)
      rw [ofJson_object_of_condition hc, nesting, hoperand, Json.nesting_object, hc]
      rfl
    · rw [ofJson_object_eq_iff.mpr hlossy, nesting_object_of_not_lossy hlossy]
      rfl

theorem wellFormed_ofJson (h : j.WellFormed) : (ofJson j).WellFormed := by
  rw [WellFormed]
  induction j using Json.induction with
  | null | bool _ | string _ => exact (forall_holds_iff rfl rfl).mpr trivial
  | number n =>
    obtain ⟨k, hn⟩ | ⟨x, -, hn⟩ := ofJson_number n <;> rw [hn] <;>
      exact (forall_holds_iff rfl rfl).mpr trivial
  | array js ih =>
    rw [ofJson_array, forall_holds_list_iff trivial]
    exact List.forall_mem_map.mpr fun j hj => ih j hj (Json.wellFormed_array_iff.mp h j hj)
  | object es ih =>
    by_cases hlossy : (object es).Lossy
    · obtain ⟨o, operand, hc⟩ := lossy_object_iff.mp hlossy
      have hmem := Json.operand_mem hc
      rw [ofJson_object_of_condition hc, forall_holds_comparison_iff trivial]
      exact ih _ hmem ((Json.wellFormed_object_iff.mp h).2 _ hmem)
    · rw [ofJson_object_eq_iff.mpr hlossy]
      exact (forall_holds_iff rfl rfl).mpr h

theorem wellFormed_toJson (h : v.WellFormed) : v.toJson.WellFormed := by
  rw [WellFormed] at h
  induction v using Value.induction with
  | null | bool _ | int _ | text _ | timestamp _ | uuid _ => trivial
  | float x =>
    rw [toJson]
    split <;> trivial
  | object es => exact h _ (.self _)
  | comparison o v ih =>
    have hv := ih ((forall_holds_comparison_iff trivial).mp h)
    have hkeys : ["operator", "value"].Nodup := by decide
    exact Json.wellFormed_object_iff.mpr ⟨hkeys, by simpa using ⟨trivial, hv⟩⟩
  | list vs ih =>
    rw [toJson, toJsons_eq_map, Json.wellFormed_array_iff]
    rw [forall_holds_list_iff trivial] at h
    exact List.forall_mem_map.mpr fun v hv => ih v hv (h v hv)

theorem Canonical.ofJson_toJson (h : v.Canonical) : ofJson v.toJson = v := by
  rw [Canonical] at h
  induction v using Value.induction with
  | null | bool _ | text _ => rfl
  | int n => exact ofNumber_ofInt64 n
  | float x =>
    have hx := h _ (.self _)
    rw [toJson, dif_pos (by simpa [Lossy] using hx)]
    rfl
  | timestamp _ | uuid _ => exact (h _ (.self _) trivial).elim
  | object es => exact ofJson_object_eq_iff.mpr (h _ (.self _))
  | comparison o v ih => rw [toJson, ofJson_comparison, ih ((forall_holds_comparison_iff id).mp h)]
  | list vs ih =>
    rw [forall_holds_list_iff id] at h
    have hitems : vs.map (ofJson ∘ toJson) = vs := by
      nth_rewrite 2 [← List.map_id vs]
      exact List.map_congr_left fun v hv => ih v hv (h v hv)
    rw [toJson, toJsons_eq_map, ofJson_array, List.map_map, hitems]

theorem Canonical.nesting_toJson (h : v.Canonical) : v.toJson.nesting = v.nesting := by
  have hread := nesting_ofJson v.toJson
  rwa [h.ofJson_toJson, eq_comm] at hread

/-- Only null is written as null. -/
theorem Canonical.toJson_ne_null (h : v.Canonical) (hv : v ≠ .null) : v.toJson ≠ .null := by
  intro hnull
  have hread := h.ofJson_toJson
  rw [hnull] at hread
  exact hv hread.symm

theorem nesting_lt_itemNesting {vs : List Value} (h : v ∈ vs) : v.nesting < itemNesting vs := by
  induction vs with
  | nil => cases h
  | cons w vs ih =>
    rw [itemNesting]
    rcases List.mem_cons.mp h with rfl | h
    · exact Nat.lt_of_succ_le (Nat.le_max_left _ _)
    · exact (ih h).trans_le (Nat.le_max_right _ _)

/-- An object that is no comparison is acceptable just if it could not have been meant as one. -/
theorem acceptable_object_iff (hd : Fits limit depth) (hes : ¬(object es).Lossy) :
    (Json.object es).Acceptable limit depth ↔ ¬(object es).ConditionShaped := by
  constructor
  · intro h
    cases h with
    | condition _ hk ho => exact (hes ⟨hk, _, ho⟩).elim
    | plain _ _ keys => exact keys es rfl
  · intro hk
    refine .plain hd (fun _ => Json.noConfusion) ?_
    rintro _ ⟨⟩
    exact hk

theorem acceptable_scalar (hd : Fits limit depth) (array : ∀ js, j ≠ .array js)
    (object : ∀ es, j ≠ .object es) : j.Acceptable limit depth :=
  .plain hd array fun es hes => (object es hes).elim

/-- A value that is not too deep is written as acceptable JSON just if it is plain. -/
theorem acceptable_toJson_iff (hc : v.Canonical) (hf : Fits limit (depth + v.nesting)) :
    v.toJson.Acceptable limit depth ↔ v.Plain := by
  rw [Canonical] at hc
  rw [Plain]
  have hd : Fits limit depth := hf.of_le (Nat.le_add_right _ _)
  induction v using Value.induction generalizing depth with
  | null | bool _ | int _ | text _ | timestamp _ | uuid _ =>
    rw [forall_holds_iff rfl rfl]
    exact iff_of_true (acceptable_scalar hd (by simp [toJson]) (by simp [toJson])) id
  | float x =>
    rw [forall_holds_iff rfl rfl, toJson]
    refine iff_of_true (acceptable_scalar hd ?_ ?_) id <;> split <;> simp
  | object es =>
    rw [forall_holds_iff rfl rfl]
    exact acceptable_object_iff hd (hc _ (.self _))
  | comparison o v ih =>
    have hv : Fits limit (depth + 1 + v.nesting) := by
      refine hf.of_le ?_
      rw [nesting]
      omega
    rw [forall_holds_comparison_iff id] at hc ⊢
    rw [toJson, Json.acceptable_condition_iff hd (.refl _) rfl rfl]
    exact ih hc hv (hv.of_le (Nat.le_add_right _ _))
  | list vs ih =>
    rw [forall_holds_list_iff id] at hc ⊢
    rw [toJson, toJsons_eq_map, Json.acceptable_array_iff hd, List.forall_mem_map]
    refine forall₂_congr fun v hv => ?_
    have hfits : Fits limit (depth + 1 + v.nesting) := by
      have hlt := nesting_lt_itemNesting hv
      refine hf.of_le ?_
      rw [nesting]
      omega
    exact ih v hv (hc v hv) hfits (hfits.of_le (Nat.le_add_right _ _))

namespace Readable

theorem acceptable_iff (h : v.Readable limit) : v.toJson.Acceptable limit 0 ↔ v.Plain := by
  refine acceptable_toJson_iff h.canonical ?_
  rw [Nat.zero_add]
  exact h.fits

theorem ofJson?_toJson (h : v.Readable limit) : ofJson? limit 0 v.toJson = some v := by
  rw [ofJson?_eq_some_iff, h.canonical.nesting_toJson]
  exact ⟨h.fits, h.canonical.ofJson_toJson⟩

theorem of_ofJson? (hj : j.WellFormed) (h : ofJson? limit 0 j = some v) : v.Readable limit := by
  obtain ⟨hfits, rfl⟩ := ofJson?_eq_some_iff.mp h
  refine ⟨wellFormed_ofJson hj, canonical_ofJson j, ?_⟩
  rw [nesting_ofJson]
  exact hfits

end Readable

end Criteria.Value
