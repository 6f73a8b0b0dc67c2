import Criteria.Proofs.Compilation.Steps
import Criteria.Proofs.Json.Documents
import Criteria.Proofs.Reading.Parts
import Criteria.Validation
import Mathlib.Data.List.Forall2

/-! The terms that the reading of an order keeps, and the defects that it meets on the way. -/
namespace Criteria

/-- An item of a list of terms, with the term that is kept of it and the defect that is met. A lost
direction leaves the column, and whatever else is wrong leaves nothing. -/
inductive ItemYields (path : Path) : Json → Option OrderTerm → Option Defect → Prop where
  | undirected {es : Entries Json} {c : String} (column : es.get? "column" = some (.string c))
    (direction : es.get? "direction" = none ∨ es.get? "direction" = some .null) :
    ItemYields path (.object es) (some ⟨c, none⟩) none
  | directed {es : Entries Json} {c d : String} (column : es.get? "column" = some (.string c))
    (direction : es.get? "direction" = some (.string d)) :
    ItemYields path (.object es) (some ⟨c, some d⟩) none
  | directionLost {es : Entries Json} {c : String} {j : Json}
    (column : es.get? "column" = some (.string c)) (direction : es.get? "direction" = some j)
    (null : j ≠ .null) (text : ∀ d, j ≠ .string d) :
    ItemYields path (.object es) (some ⟨c, none⟩)
      (some ⟨path.member "direction", .directionNotText⟩)
  | columnNotText {es : Entries Json} {j : Json} (column : es.get? "column" = some j)
    (text : ∀ c, j ≠ .string c) :
    ItemYields path (.object es) none (some ⟨path.member "column", .columnNotText⟩)
  | noColumn {j : Json} (h : ∀ es, j = .object es → Entries.get? "column" es = none) :
    ItemYields path j none (some ⟨path, .termWithoutColumn⟩)

/-- The items of a list, counted from the given number, with the terms and the defects in order. -/
inductive ItemsYield (path : Path) : Nat → List Json → List OrderTerm → List Defect → Prop where
  | nil (i : Nat) : ItemsYield path i [] [] []
  | cons {i : Nat} {j : Json} {js : List Json} {term : Option OrderTerm} {defect : Option Defect}
    {ts : List OrderTerm} {ds : List Defect} (item : ItemYields (path.item i) j term defect)
    (rest : ItemsYield path (i + 1) js ts ds) :
    ItemsYield path i (j :: js) (term.toList ++ ts) (defect.toList ++ ds)

section

variable {path : Path} {i : Nat} {j : Json} {js : List Json} {term : Option OrderTerm}
  {defect : Option Defect} {ts : List OrderTerm} {ds : List Defect}

theorem exists_itemYields (path : Path) (j : Json) :
    ∃ defect, ItemYields path j (OrderTerm.ofJson? j) defect ∧
      j.termDefects path = defect.toList := by
  cases j with
  | object es =>
    rw [OrderTerm.ofJson?, Json.termDefects]
    cases hc : Entries.get? "column" es with
    | none => exact ⟨_, .noColumn fun _ h => Json.object.inj h ▸ hc, rfl⟩
    | some column =>
      cases column with
      | string c =>
        cases hd : Entries.get? "direction" es with
        | none => exact ⟨_, .undirected hc (.inl hd), rfl⟩
        | some direction =>
          cases direction with
          | null => exact ⟨_, .undirected hc (.inr hd), rfl⟩
          | string d => exact ⟨_, .directed hc hd, rfl⟩
          | _ => exact ⟨_, .directionLost hc hd (by simp) (by simp), rfl⟩
      | _ => exact ⟨_, .columnNotText hc (by simp), rfl⟩
  | _ => exact ⟨_, .noColumn (by simp), rfl⟩

theorem itemsYield (path : Path) (js : List Json) (i : Nat) :
    ItemsYield path i js (js.filterMap OrderTerm.ofJson?)
      ((js.zipIdx i).flatMap fun e => e.1.termDefects (path.item e.2)) := by
  induction js generalizing i with
  | nil => exact .nil i
  | cons j js ih =>
    obtain ⟨defect, hj, hdefect⟩ := exists_itemYields (path.item i) j
    have hterms : (j :: js).filterMap OrderTerm.ofJson? =
        (OrderTerm.ofJson? j).toList ++ js.filterMap OrderTerm.ofJson? := by
      rw [List.filterMap_cons]
      cases OrderTerm.ofJson? j <;> rfl
    rw [hterms, List.zipIdx_cons, List.flatMap_cons, hdefect]
    exact .cons hj (ih (i + 1))

/-- An item is kept, or a defect says why not. -/
theorem ItemYields.count (h : ItemYields path j term defect) :
    term.toList.length +
      (defect.toList.filter fun d => d.reason ≠ .directionNotText).length = 1 := by
  cases h <;> rfl

theorem ItemsYield.count (h : ItemsYield path i js ts ds) :
    ts.length + (ds.filter fun d => d.reason ≠ .directionNotText).length = js.length := by
  induction h with
  | nil => rfl
  | cons item _ ih =>
    have hitem := item.count
    rw [List.length_append, List.filter_append, List.length_append, List.length_cons]
    omega

theorem ItemYields.text_path {d : Defect} (h : ItemYields path j term (some d)) :
    ∃ rest, d.path.text = path.text ++ rest := by
  cases h with
  | directionLost => exact ⟨".direction", String.append_assoc ..⟩
  | columnNotText => exact ⟨".column", String.append_assoc ..⟩
  | noColumn => exact ⟨"", String.append_empty.symm⟩

/-- The defects stand in the order of the items, at most one within each. -/
def InItemOrder (path : Path) (ds : List Defect) (is : List Nat) : Prop :=
  is.Pairwise (· < ·) ∧
    List.Forall₂ (fun i d => ∃ rest, d.path.text = (path.item i).text ++ rest) is ds

theorem ItemsYield.inItemOrder (h : ItemsYield path i js ts ds) :
    ∃ is, InItemOrder path ds is ∧ ∀ k ∈ is, i ≤ k ∧ k < i + js.length := by
  induction h with
  | nil => exact ⟨[], ⟨.nil, .nil⟩, by simp⟩
  | @cons i j js term defect ts ds item _ ih =>
    obtain ⟨is, ⟨hsorted, hpaths⟩, hrange⟩ := ih
    cases defect with
    | none =>
      refine ⟨is, ⟨hsorted, hpaths⟩, fun k hk => ?_⟩
      have := hrange k hk
      rw [List.length_cons]
      omega
    | some d =>
      refine ⟨i :: is, ⟨List.pairwise_cons.mpr ⟨fun k hk => (hrange k hk).1, hsorted⟩,
        .cons item.text_path hpaths⟩, fun k hk => ?_⟩
      rw [List.length_cons]
      rcases List.mem_cons.mp hk with rfl | hk
      · omega
      · have := hrange k hk
        omega

end

open Reading (ofDefects ofDefects_eq_ok_iff)

theorem Reading.defects_ofDefects {α : Type} {mode : Mode} {ds : List Defect} {a : α}
    (h : mode ≠ .strict) : (ofDefects mode ds a).events.map (·.defect) = ds := by
  cases mode with
  | lenient | warning => simp [ofDefects, Function.comp_def]
  | strict => exact (h rfl).elim

namespace ReadRequest

/-- A document with the given order among its other entries. -/
def withOrder (before after : Entries Json) (j : Json) : Json :=
  .object (before ++ ("orderBy", j) :: after)

section

variable (policy : Policy) (base : Option Path) (before after : Entries Json)

/-- The order is a list, and just the terms `ts` are kept of it. -/
structure KeepsTerms (js : List Json) (ts : List OrderTerm) (ds : List Defect) : Prop where
  yields : ItemsYield (.under base "orderBy") 0 js ts ds
  order : ∃ r, (read policy base (withOrder before after (.array js))).result = .ok r ∧
    r.order = some (.terms ts)
  /-- The defects of the list are met where its key stands. -/
  events : (read policy base (withOrder before after (.array js))).events.map (·.defect) =
    (read policy base (.object before)).events.map (·.defect) ++ ds ++
      (read policy base (.object after)).events.map (·.defect)
  count : ts.length + (ds.filter fun d => d.reason ≠ .directionNotText).length = js.length
  positions : ∃ is, InItemOrder (.under base "orderBy") ds is ∧ ∀ i ∈ is, i < js.length

end

/-- An order that is one term, and one that is a list of this term only. -/
inductive SameTerm : Option OrderClause → Option OrderClause → Prop where
  | kept (t : OrderTerm) : SameTerm (some (.term t)) (some (.terms [t]))
  | dropped : SameTerm none (some (.terms []))

/-- Two requests that differ in how they write their order only. -/
structure SameOrder (r s : ReadRequest) : Prop where
  order : SameTerm r.order s.order
  others : s = { r with order := s.order }
  compile : ∀ (allowed : AllowList) (σ ε : Type),
    (Compilation.read (some r) allowed : Compilation σ ε Unit) = Compilation.read (some s) allowed
  validate : ∀ base allowed, Validation.readAt base allowed r = Validation.readAt base allowed s

/-- Two readings that succeed together, and then give requests with the same order. -/
structure ReadsSameOrder (x y : Reading ReadRequest) : Prop where
  ok_iff : (∃ r, x.result = .ok r) ↔ ∃ s, y.result = .ok s
  same : ∀ r s, x.result = .ok r → y.result = .ok s → SameOrder r s

section

variable {mode : Mode} {limit : Option Nat} {base : Option Path} {before after es : Entries Json}
  {j : Json} {js : List Json}

theorem metDefects_withOrder : metDefects limit base (withOrder before after j) =
    metDefects limit base (.object before) ++ j.orderDefects (.under base "orderBy") ++
      metDefects limit base (.object after) := by
  rw [← @met_entryDefects_order limit base _ j rfl]
  simp only [metDefects, withOrder, Json.rootDefects, List.flatMap_append, List.flatMap_cons,
    List.append_assoc]

/-- The order is read from its own entry, and all else from the others. -/
theorem kept_withOrder (hn : (before.keys ++ "orderBy" :: after.keys).Nodup) (j : Json) :
    kept limit (withOrder before after j) =
      { kept limit (withOrder before after .null) with order := OrderClause.ofJson? j } := by
  have hkeys : ∀ j, (Entries.keys (before ++ ("orderBy", j) :: after)).Nodup := by
    intro j
    rw [Entries.keys, List.map_append]
    exact hn
  have hfields : ∀ j, ((before ++ ("orderBy", j) :: after).filter fun e =>
      e.1 ∉ reserved ∧ Fits limit e.2.nesting) =
        (before ++ after).filter fun e => e.1 ∉ reserved ∧ Fits limit e.2.nesting := by
    intro j
    simp [reserved]
  have hother : ∀ key ≠ "orderBy", ∀ j, Entries.get? key (before ++ ("orderBy", j) :: after) =
      (Entries.get? key before).or (Entries.get? key after) := by
    intro key hkey j
    rw [Entries.get?_append, Entries.get?, if_neg hkey.symm]
  have horder : Entries.get? "orderBy" (before ++ ("orderBy", j) :: after) = some j :=
    (Entries.get?_eq_some_iff_mem (hkeys j)).mpr (by simp)
  have hj := @assembles_kept limit _ (hkeys j)
  have hnull := @assembles_kept limit _ (hkeys .null)
  rw [withOrder, withOrder]
  apply eq_of_parts
  · simp only [hj.fields, hnull.fields, hfields]
  · simp only [hj.order, horder, Option.bind_some]
  · simp only [hj.limit, hnull.limit, hother "limit" (by decide)]
  · simp only [hj.offset, hnull.offset, hother "offset" (by decide)]

theorem sameTerm_ofJson? (es : Entries Json) : SameTerm (OrderClause.ofJson? (.object es))
    (OrderClause.ofJson? (.array [.object es])) := by
  change SameTerm ((OrderTerm.ofJson? (.object es)).map .term)
    (some (.terms ([Json.object es].filterMap OrderTerm.ofJson?)))
  rw [List.filterMap_cons, List.filterMap_nil]
  cases OrderTerm.ofJson? (.object es) with
  | none => exact .dropped
  | some t => exact .kept t

theorem sameOrder_of_sameTerm {o p : Option OrderClause} (r : ReadRequest) (h : SameTerm o p) :
    SameOrder { r with order := o } { r with order := p } := by
  constructor
  · exact h
  · rfl
  · intro allowed σ ε
    rw [Compilation.read_eq, Compilation.read_eq]
    cases h <;> rfl
  · intro base allowed
    cases h <;> rfl

theorem isOrder_iff_isOrder_singleton :
    Json.IsOrder (.object es) ↔ Json.IsOrder (.array [.object es]) := by
  constructor
  · intro h
    cases h with
    | term h => exact .terms (List.forall_mem_singleton.mpr h)
  · intro h
    cases h with
    | term h => cases h
    | terms h => exact .term (h _ List.mem_cons_self)

/-- An order that is one term is malformed just if the list of this term is. -/
theorem metDefects_singleton_eq_nil_iff :
    metDefects limit base (withOrder before after (.object es)) = [] ↔
      metDefects limit base (withOrder before after (.array [.object es])) = [] := by
  simp only [metDefects_withOrder, List.append_eq_nil_iff, (Json.diagnoses_order _).nil_iff,
    isOrder_iff_isOrder_singleton]

theorem read_withOrder_eq_ok_iff (hn : (before.keys ++ "orderBy" :: after.keys).Nodup)
    {r : ReadRequest} : (read ⟨mode, limit⟩ base (withOrder before after j)).result = .ok r ↔
      (mode = .strict → metDefects limit base (withOrder before after j) = []) ∧
        { kept limit (withOrder before after .null) with order := OrderClause.ofJson? j } = r := by
  rw [read_eq, ofDefects_eq_ok_iff, kept_withOrder hn]

theorem readsSameOrder_singleton (hn : (before.keys ++ "orderBy" :: after.keys).Nodup) :
    ReadsSameOrder (read ⟨mode, limit⟩ base (withOrder before after (.object es)))
      (read ⟨mode, limit⟩ base (withOrder before after (.array [.object es]))) := by
  constructor
  · simp only [read_withOrder_eq_ok_iff hn, exists_and_left, exists_eq', and_true,
      metDefects_singleton_eq_nil_iff]
  · intro r s hr hs
    obtain ⟨-, rfl⟩ := (read_withOrder_eq_ok_iff hn).mp hr
    obtain ⟨-, rfl⟩ := (read_withOrder_eq_ok_iff hn).mp hs
    exact sameOrder_of_sameTerm _ (sameTerm_ofJson? es)

theorem keepsTerms (hn : (before.keys ++ "orderBy" :: after.keys).Nodup) (hmode : mode ≠ .strict)
    (js : List Json) : KeepsTerms ⟨mode, limit⟩ base before after js
      (js.filterMap OrderTerm.ofJson?) ((Json.array js).orderDefects (.under base "orderBy")) := by
  have hyields := itemsYield (.under base "orderBy") js 0
  constructor
  · exact hyields
  · exact ⟨_, (read_withOrder_eq_ok_iff hn).mpr ⟨fun h => (hmode h).elim, rfl⟩, rfl⟩
  · simp only [read_eq, Reading.defects_ofDefects hmode, metDefects_withOrder]
  · exact hyields.count
  · obtain ⟨is, his, hrange⟩ := hyields.inItemOrder
    refine ⟨is, his, fun i hi => ?_⟩
    have := hrange i hi
    omega

/-- Of a list the well-formed terms are kept, in every mode that drops what is malformed. One term
is read in every mode as the list of this term is. -/
theorem orders_keepTerms (policy : Policy) (base : Option Path) (before after : Entries Json)
    (hn : (before.keys ++ "orderBy" :: after.keys).Nodup) :
    (policy.mode ≠ .strict → ∀ js, ∃ ts ds, KeepsTerms policy base before after js ts ds) ∧
      ∀ es, ReadsSameOrder (read policy base (withOrder before after (.object es)))
        (read policy base (withOrder before after (.array [.object es]))) := by
  constructor
  · intro hmode js
    exact ⟨_, _, keepsTerms hn hmode js⟩
  · intro es
    exact readsSameOrder_singleton hn

end

/-- Here two of four terms are kept, one of them without its direction. -/
theorem orders_keepTerms_mixed :
    let before : Entries Json := [("name", .string "a")]
    let after : Entries Json := [("limit", .string "10")]
    let term : Entries Json := [("column", .string "b"), ("direction", .bool true)]
    let js : List Json := [.object [("column", .string "a"), ("direction", .string "desc")],
      .string "junk", .object [("direction", .string "asc")], .object term]
    (before.keys ++ "orderBy" :: after.keys).Nodup ∧
      (∃ ts ds, KeepsTerms ⟨.warning, some 32⟩ none before after js ts ds) ∧
      ReadsSameOrder (read ⟨.warning, some 32⟩ none (withOrder before after (.object term)))
        (read ⟨.warning, some 32⟩ none (withOrder before after (.array [.object term]))) ∧
      (read ⟨.warning, some 32⟩ none (withOrder before after (.array js))).events.map
        (·.defect.path.text) = ["orderBy[1]", "orderBy[2]", "orderBy[3].direction"] := by
  intro before after term js
  have hn : (before.keys ++ "orderBy" :: after.keys).Nodup := by decide
  obtain ⟨hterms, hsame⟩ := orders_keepTerms ⟨.warning, some 32⟩ none before after hn
  exact ⟨hn, hterms (by decide) js, hsame term, by decide⟩

end ReadRequest

end Criteria
