import Criteria.Proofs.Json.Equality
import Criteria.Proofs.Value.Basic

/-! Equality of values: symmetric and transitive, and reflexive but for what is not a number. -/
namespace Criteria.Value

/-- What it takes for two values to be equal, one layer deep. -/
inductive Matches : Value → Value → Prop where
  | null : Matches .null .null
  | bool (b : Bool) : Matches (.bool b) (.bool b)
  | int (n : Int64) : Matches (.int n) (.int n)
  | float {x y : Binary64} (h : (x == y) = true) : Matches (.float x) (.float y)
  | text (s : String) : Matches (.text s) (.text s)
  | timestamp (t : Timestamp) : Matches (.timestamp t) (.timestamp t)
  | uuid (u : Uuid) : Matches (.uuid u) (.uuid u)
  | object {es fs : Entries Json} (h : (Json.object es == Json.object fs) = true) :
      Matches (.object es) (.object fs)
  | comparison {v w : Value} (o : String) (h : (v == w) = true) :
      Matches (.comparison o v) (.comparison o w)
  | list {vs ws : List Value} (h : (vs == ws) = true) : Matches (.list vs) (.list ws)

theorem equalItems_eq_beq (vs ws : List Value) : equalItems vs ws = (vs == ws) := by
  induction vs generalizing ws with
  | nil => cases ws <;> rfl
  | cons v vs ih =>
    cases ws with
    | nil => rfl
    | cons w ws =>
      rw [equalItems, ih, List.cons_beq_cons]
      rfl

@[simp]
theorem float_beq_float (x y : Binary64) : (float x == float y) = (x == y) := rfl

@[simp]
theorem object_beq_object (es fs : Entries Json) :
    (object es == object fs) = (Json.object es == Json.object fs) := rfl

@[simp]
theorem comparison_beq_comparison (o p : String) (v w : Value) :
    (comparison o v == comparison p w) = (o == p && v == w) := rfl

@[simp]
theorem list_beq_list (vs ws : List Value) : (list vs == list ws) = (vs == ws) :=
  equalItems_eq_beq vs ws

theorem beq_iff_matches {v w : Value} : (v == w) = true ↔ Matches v w := by
  have hequal : (v == w) = equal v w := rfl
  rw [hequal]
  constructor
  · fun_cases equal v w with
    | case1 =>
      intro _
      exact .null
    | case2 | case3 | case5 | case6 | case7 =>
      intro h
      cases eq_of_beq h
      constructor
    | case4 x y =>
      intro h
      exact .float h
    | case8 es fs =>
      intro h
      exact .object h
    | case9 o v p w =>
      intro h
      obtain ⟨ho, hvw⟩ := Bool.and_eq_true_iff.mp h
      cases eq_of_beq ho
      exact .comparison o hvw
    | case10 vs ws =>
      intro h
      rw [equalItems_eq_beq] at h
      exact .list h
    | case11 =>
      intro h
      cases h
  · intro h
    cases h with
    | null => rfl
    | float h | object h => exact h
    | comparison o h => exact Bool.and_eq_true_iff.mpr ⟨BEq.rfl, h⟩
    | list h => exact (equalItems_eq_beq _ _).trans h
    | _ => exact BEq.rfl

variable {u v w : Value} {vs ws : List Value}

theorem kind_eq_of_beq (h : (v == w) = true) : v.kind = w.kind := by
  cases beq_iff_matches.mp h <;> rfl

theorem isComparison_eq_of_beq (h : (v == w) = true) : v.isComparison = w.isComparison := by
  cases beq_iff_matches.mp h <;> rfl

theorem beq_trans (huv : (u == v) = true) (hvw : (v == w) = true) : (u == w) = true := by
  induction u using Value.induction generalizing v w with
  | null | bool _ | int _ | text _ | timestamp _ | uuid _ =>
    cases beq_iff_matches.mp huv
    exact hvw
  | float x =>
    cases beq_iff_matches.mp huv with
    | float hxy =>
      cases beq_iff_matches.mp hvw with
      | float hyz => exact beq_iff_matches.mpr (.float (PartialEquivBEq.trans hxy hyz))
  | object es =>
    cases beq_iff_matches.mp huv with
    | object hes =>
      cases beq_iff_matches.mp hvw with
      | object hfs => exact beq_iff_matches.mpr (.object (Json.beq_trans hes hfs))
  | comparison o u ih =>
    cases beq_iff_matches.mp huv with
    | comparison _ hoperand =>
      cases beq_iff_matches.mp hvw with
      | comparison _ hoperand' =>
        exact beq_iff_matches.mpr (.comparison o (ih hoperand hoperand'))
  | list us ih =>
    cases beq_iff_matches.mp huv with
    | list hus =>
      cases beq_iff_matches.mp hvw with
      | list hvs =>
        rw [beq_iff_forall₂] at hus hvs
        exact beq_iff_matches.mpr (.list (beq_iff_forall₂.mpr (forall₂_trans hus hvs ih)))

namespace WellFormed

theorem float (x : Binary64) : (float x).WellFormed := (forall_holds_iff rfl rfl).mpr trivial

theorem object_iff {es : Entries Json} : (object es).WellFormed ↔ (Json.object es).WellFormed :=
  forall_holds_iff rfl rfl

theorem comparison_iff {o : String} : (comparison o v).WellFormed ↔ v.WellFormed :=
  forall_holds_comparison_iff trivial

theorem list_iff : (list vs).WellFormed ↔ ∀ v ∈ vs, v.WellFormed :=
  forall_holds_list_iff trivial

theorem of_beq (hv : v.WellFormed) (h : (v == w) = true) : w.WellFormed := by
  induction v using Value.induction generalizing w with
  | null | bool _ | int _ | text _ | timestamp _ | uuid _ =>
    cases beq_iff_matches.mp h
    exact hv
  | float x =>
    cases beq_iff_matches.mp h
    exact float _
  | object es =>
    cases beq_iff_matches.mp h with
    | object hes => exact object_iff.mpr ((object_iff.mp hv).of_beq hes)
  | comparison o v ih =>
    cases beq_iff_matches.mp h with
    | comparison _ hvw => exact comparison_iff.mpr (ih (comparison_iff.mp hv) hvw)
  | list vs ih =>
    rw [list_iff] at hv
    cases beq_iff_matches.mp h with
    | list hvs =>
      exact list_iff.mpr
        (forall_mem_of_forall₂ (beq_iff_forall₂.mp hvs) fun v hmem w => ih v hmem (hv v hmem))

theorem beq_symm (hv : v.WellFormed) (h : (v == w) = true) : (w == v) = true := by
  induction v using Value.induction generalizing w with
  | null | bool _ | int _ | text _ | timestamp _ | uuid _ =>
    cases beq_iff_matches.mp h
    exact h
  | float x =>
    cases beq_iff_matches.mp h with
    | float hxy => exact beq_iff_matches.mpr (.float (BEq.symm hxy))
  | object es =>
    cases beq_iff_matches.mp h with
    | object hes => exact beq_iff_matches.mpr (.object ((object_iff.mp hv).beq_symm hes))
  | comparison o v ih =>
    cases beq_iff_matches.mp h with
    | comparison _ hvw =>
      exact beq_iff_matches.mpr (.comparison o (ih (comparison_iff.mp hv) hvw))
  | list vs ih =>
    rw [list_iff] at hv
    cases beq_iff_matches.mp h with
    | list hvs =>
      have hsymm := forall₂_symm (beq_iff_forall₂.mp hvs) fun v hmem w => ih v hmem (hv v hmem)
      exact beq_iff_matches.mpr (.list (beq_iff_forall₂.mpr hsymm))

end WellFormed

/-- A float that is no number. -/
def IsNaN : Value → Prop
  | .float x => x.isNaN = true
  | _ => False

theorem beq_self_iff (hv : v.WellFormed) : (v == v) = true ↔ ∀ w, v.Holds w → ¬w.IsNaN := by
  induction v using Value.induction with
  | null | bool _ | int _ | text _ | timestamp _ | uuid _ =>
    rw [forall_holds_iff rfl rfl]
    exact iff_of_true (beq_iff_matches.mpr (by constructor)) id
  | float x =>
    rw [forall_holds_iff rfl rfl, IsNaN, Bool.not_eq_true, ← Binary64.beq_self_iff]
    rfl
  | object es =>
    rw [forall_holds_iff rfl rfl]
    exact iff_of_true (WellFormed.object_iff.mp hv).beq_self id
  | comparison o v ih =>
    rw [forall_holds_comparison_iff id, ← ih (WellFormed.comparison_iff.mp hv)]
    simp
  | list vs ih =>
    rw [WellFormed.list_iff] at hv
    rw [forall_holds_list_iff id, list_beq_list, beq_iff_forall₂, List.forall₂_same]
    exact forall₂_congr fun v hmem => ih v hmem (hv v hmem)

/-- The same value in another spelling of its data and of its zeros. -/
inductive Respelled : Value → Value → Prop where
  | refl (v : Value) : Respelled v v
  | trans {u v w : Value} (huv : Respelled u v) (hvw : Respelled v w) : Respelled u w
  | zero {x y : Binary64} (hx : x.isZero = true) (hy : y.isZero = true) :
      Respelled (.float x) (.float y)
  | object {es fs : Entries Json} (h : Json.Respelled (.object es) (.object fs)) :
      Respelled (.object es) (.object fs)
  | operand {o : String} {v w : Value} (h : Respelled v w) :
      Respelled (.comparison o v) (.comparison o w)
  | item {us vs : List Value} {v w : Value} (h : Respelled v w) :
      Respelled (.list (us ++ v :: vs)) (.list (us ++ w :: vs))

namespace Respelled

theorem wellFormed (h : v.Respelled w) (hv : v.WellFormed) : w.WellFormed := by
  induction h with
  | refl => exact hv
  | trans _ _ ih ih' => exact ih' (ih hv)
  | zero => exact .float _
  | object h =>
    have hes := WellFormed.object_iff.mp hv
    exact WellFormed.object_iff.mpr (hes.of_beq (h.beq hes))
  | operand _ ih => exact WellFormed.comparison_iff.mpr (ih (WellFormed.comparison_iff.mp hv))
  | item _ ih =>
    rw [WellFormed.list_iff, List.forall_mem_append, List.forall_mem_cons] at hv ⊢
    obtain ⟨hus, hv, hvs⟩ := hv
    exact ⟨hus, ih hv, hvs⟩

/-- No comparison with another value sees the spelling. A value that holds a not-a-number is not
even equal to itself, so this does not follow from the equality of the two spellings. -/
theorem beq_congr (h : v.Respelled w) (hv : v.WellFormed) (u : Value) : (v == u) = (w == u) := by
  induction h generalizing u with
  | refl => rfl
  | trans hvw _ ih ih' => exact (ih hv u).trans (ih' (hvw.wellFormed hv) u)
  | zero hx hy =>
    cases u with
    | float z =>
      rw [float_beq_float, float_beq_float]
      exact BEq.congr_left (Binary64.beq_of_isZero hx hy)
    | _ => rfl
  | @object es fs h =>
    have hes := WellFormed.object_iff.mp hv
    have hfs := h.beq hes
    cases u with
    | object gs =>
      rw [object_beq_object, object_beq_object, Bool.eq_iff_iff]
      exact ⟨Json.beq_trans (hes.beq_symm hfs), Json.beq_trans hfs⟩
    | _ => rfl
  | @operand o v w h ih =>
    cases u with
    | comparison p u =>
      rw [comparison_beq_comparison, comparison_beq_comparison,
        ih (WellFormed.comparison_iff.mp hv)]
    | _ => rfl
  | @item us vs v w h ih =>
    have hv := WellFormed.list_iff.mp hv v (by simp)
    cases u with
    | list ws =>
      rw [list_beq_list, list_beq_list]
      exact append_cons_beq_congr (ih hv) us vs ws
    | _ => rfl

end Respelled

theorem beq_comm (hv : v.WellFormed) (hw : w.WellFormed) : (v == w) = (w == v) :=
  Bool.eq_iff_iff.mpr ⟨hv.beq_symm, hw.beq_symm⟩

/-- What equality is, if it is no equivalence: it is symmetric and transitive, and only what is not
a number is not equal to itself. -/
structure EqualityLaws (u v w : Value) : Prop where
  symm : (u == v) = (v == u)
  trans : (u == v) = true → (v == w) = true → (u == w) = true
  self_iff : (u == u) = true ↔ ∀ part, u.Holds part → ¬part.IsNaN
  respelled : ∀ u', u.Respelled u' → (u == v) = (u' == v) ∧ (v == u) = (v == u')
  kind : (u == v) = true → u.kind = v.kind

theorem equality_laws {u v w : Value} (hu : u.WellFormed) (hv : v.WellFormed) :
    EqualityLaws u v w := by
  constructor
  · exact beq_comm hu hv
  · exact beq_trans
  · exact beq_self_iff hu
  · intro u' h
    have hleft := h.beq_congr hu v
    refine ⟨hleft, ?_⟩
    rw [beq_comm hv hu, beq_comm hv (h.wellFormed hu), hleft]
  · exact kind_eq_of_beq

/-- Zeros of either sign, and entries in either order, in an object within an object. -/
def sampleSpelling : Value :=
  .list [.float (.ofMagnitude false 0), .comparison "<" (.object [("a", .bool true), ("b", .object
    [("c", .null), ("d", .number (.float (.ofMagnitude false 0) rfl))])])]

def sampleRespelling : Value :=
  .list [.float (.ofMagnitude true 0), .comparison "<" (.object [("b", .object
    [("d", .number (.float (.ofMagnitude true 0) rfl)), ("c", .null)]), ("a", .bool true)])]

theorem wellFormed_sampleSpelling : sampleSpelling.WellFormed := by
  simp [sampleSpelling, WellFormed.list_iff, WellFormed.float, WellFormed.comparison_iff,
    WellFormed.object_iff, Json.WellFormed, Json.WellFormedEntries]

/-- Each sign is changed, and each two entries are swapped. -/
theorem respelled_sampleSpelling : sampleSpelling.Respelled sampleRespelling := by
  have hzero : (Binary64.ofMagnitude false 0).isZero = true ∧
      (Binary64.ofMagnitude true 0).isZero = true := by decide
  have hinner : Json.Respelled
      (.object [("c", .null), ("d", .number (.float (.ofMagnitude false 0) rfl))])
      (.object [("d", .number (.float (.ofMagnitude true 0) rfl)), ("c", .null)]) :=
    .trans (.entries (.swap _ _ []))
      (@Json.Respelled.value [] _ _ _ _ (.zero hzero.1 hzero.2 rfl rfl))
  have houter := Json.Respelled.trans (.entries (.swap _ _ []))
    (@Json.Respelled.value [] [("a", .bool true)] "b" _ _ hinner)
  exact .trans (@Respelled.item [] _ _ _ (.zero hzero.1 hzero.2))
    (@Respelled.item [_] _ _ _ (.operand (.object houter)))

theorem equality_laws_sampleSpelling : sampleSpelling.WellFormed ∧ sampleRespelling.WellFormed ∧
    (sampleSpelling == sampleRespelling) = true ∧
      EqualityLaws sampleSpelling sampleRespelling sampleSpelling := by
  have hspelling := wellFormed_sampleSpelling
  have hbeq : (sampleSpelling == sampleRespelling) = true := by decide
  have hrespelling : sampleRespelling.WellFormed := hspelling.of_beq hbeq
  exact ⟨hspelling, hrespelling, hbeq, equality_laws hspelling hrespelling⟩

end Criteria.Value
