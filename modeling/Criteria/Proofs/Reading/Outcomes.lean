import Criteria.Proofs.Json.Defects
import Criteria.Proofs.Reading.Defects
import Criteria.Proofs.Reading.Order
import Criteria.Proofs.Reading.Value
import Criteria.Reading.Request

/-! What every reading meets and what it gives, in all modes at once. -/
namespace Criteria

open Reading (ofDefects ofDefects_nil ofDefects_bind ofDefects_bind_pure ofDefects_foldlM reject_eq)

namespace Defect

variable {ds es : List Defect}

/-- The defects that the reading of a value meets. At the first part that lies too deep the value
is given up. -/
def met : List Defect → List Defect
  | [] => []
  | d :: ds => if d.reason = .tooDeep then [d] else d :: met ds

theorem head?_met : (met ds).head? = ds.head? := by
  cases ds with
  | nil => rfl
  | cons d ds =>
    rw [met]
    split <;> rfl

theorem met_append (h : ∀ d ∈ ds, d.reason ≠ .tooDeep) : met (ds ++ es) = ds ++ met es := by
  induction ds with
  | nil => rfl
  | cons d ds ih =>
    obtain ⟨hd, hds⟩ := List.forall_mem_cons.mp h
    rw [List.cons_append, met, if_neg hd, ih hds, List.cons_append]

theorem met_eq_self (h : ∀ d ∈ ds, d.reason ≠ .tooDeep) : met ds = ds := by
  have happend := @met_append ds [] h
  simpa [met] using happend

theorem met_append_of_tooDeep (h : ¬∀ d ∈ ds, d.reason ≠ .tooDeep) : met (ds ++ es) = met ds := by
  induction ds with
  | nil => simp at h
  | cons d ds ih =>
    rw [List.cons_append, met, met]
    split
    · rfl
    · rename_i hd
      rw [ih fun hds => h (List.forall_mem_cons.mpr ⟨hd, hds⟩)]

end Defect

section

variable {mode : Mode} {limit : Option Nat} {path : Path} {depth : Nat} {j : Json}

theorem Policy.allows_iff : (⟨mode, limit⟩ : Policy).allows depth = true ↔ Fits limit depth := by
  cases limit <;> simp [allows, Fits]

namespace Value

/-- The value that a field takes from a document, if it does not nest too deep. -/
def ofJson? (limit : Option Nat) (depth : Nat) (j : Json) : Option Value :=
  if Fits limit (depth + j.nesting) then some (ofJson j) else none

theorem ofJson?_eq_some_iff {v : Value} :
    ofJson? limit 0 j = some v ↔ Fits limit j.nesting ∧ ofJson j = v := by
  rw [ofJson?, Nat.zero_add, Option.ite_none_right_eq_some, Option.some.injEq]

theorem read_eq_of_not_fits (h : ¬Fits limit depth) : read ⟨mode, limit⟩ path depth j =
    ofDefects mode (Defect.met (j.defects limit path depth)) (ofJson? limit depth j) := by
  have ha : (⟨mode, limit⟩ : Policy).allows depth = false :=
    Bool.eq_false_iff.mpr (mt Policy.allows_iff.mp h)
  have hn : ¬Fits limit (depth + j.nesting) := fun hf => h (hf.of_le (Nat.le_add_right _ _))
  rw [read_of_not_allows ha, reject_eq, Json.defects_of_not_fits h, ofJson?, if_neg hn]
  exact ofDefects_bind_pure rfl

theorem read_eq_of_fits (h : Fits limit depth) {v : Value}
    (hr : read ⟨mode, limit⟩ path depth j = pure (some v)) (hd : j.defects limit path depth = [])
    (hn : j.nesting = 0) (hv : ofJson j = v) : read ⟨mode, limit⟩ path depth j =
      ofDefects mode (Defect.met (j.defects limit path depth)) (ofJson? limit depth j) := by
  rw [hr, hd, ofJson?, hn, Nat.add_zero, if_pos h, hv]
  exact ofDefects_nil.symm

theorem readItems_eq {js : List Json} (hd : Fits limit depth)
    (h : ∀ j ∈ js, ∀ path depth, read ⟨mode, limit⟩ path depth j =
      ofDefects mode (Defect.met (j.defects limit path depth)) (ofJson? limit depth j)) (i : Nat) :
    readItems ⟨mode, limit⟩ path depth i js =
      ofDefects mode (Defect.met (Json.itemDefects limit path depth i js))
        (if Fits limit (depth + Json.itemNesting js) then some (js.map ofJson) else none) := by
  induction js generalizing i with
  | nil =>
    rw [Json.itemNesting, Nat.add_zero, if_pos hd]
    exact ofDefects_nil.symm
  | cons j js ih =>
    have hjs := ih (fun j hj => h j (List.mem_cons_of_mem _ hj)) (i + 1)
    have hdeep := @Json.defects_tooDeep_iff limit j (path.item i) (depth + 1)
    have hcons := @Json.fits_itemNesting_cons limit depth j js
    rw [readItems, h j List.mem_cons_self, ofJson?, Json.itemDefects]
    by_cases hj : Fits limit (depth + 1 + j.nesting)
    · have hshallow := hdeep.mpr hj
      rw [if_pos hj, Defect.met_eq_self hshallow, Defect.met_append hshallow]
      refine ofDefects_bind ?_
      dsimp only
      rw [hjs]
      refine ofDefects_bind_pure ?_
      by_cases hfits : Fits limit (depth + Json.itemNesting js)
      · rw [if_pos hfits, if_pos (hcons.mpr ⟨hj, hfits⟩)]
        rfl
      · rw [if_neg hfits, if_neg fun hf => hfits (hcons.mp hf).2]
        rfl
    -- a part of the item lies too deep, and the items after it are not looked at
    · rw [if_neg hj, Defect.met_append_of_tooDeep (mt hdeep.mp hj),
        if_neg fun hf => hj (hcons.mp hf).1]
      exact ofDefects_bind_pure rfl

theorem readCondition_eq {operator operand : Json} {es : List (String × Json)}
    (hd : Fits limit depth) (h : read ⟨mode, limit⟩ (path.member "value") (depth + 1) operand =
      ofDefects mode (Defect.met (operand.defects limit (path.member "value") (depth + 1)))
        (ofJson? limit (depth + 1) operand)) :
    readCondition ⟨mode, limit⟩ path operator
        (fun _ => read ⟨mode, limit⟩ (path.member "value") (depth + 1) operand) es =
      ofDefects mode (Defect.met (Json.conditionDefects path operator
          (operand.defects limit (path.member "value") (depth + 1))))
        (if Fits limit (depth + Json.conditionNesting operator operand.nesting) then
          some (ofCondition es operator operand) else none) := by
  cases operator with
  | string o =>
    have hn : depth + (operand.nesting + 1) = depth + 1 + operand.nesting := by omega
    rw [readCondition, h, Json.conditionNesting, hn]
    refine ofDefects_bind_pure ?_
    rw [ofJson?]
    split <;> rfl
  | _ =>
    simp only [readCondition, reject_eq]
    refine ofDefects_bind_pure ?_
    exact congrArg pure (if_pos hd).symm

/-- A value is kept if it does not nest too deep. -/
theorem read_eq (j : Json) : ∀ (path : Path) (depth : Nat), read ⟨mode, limit⟩ path depth j =
    ofDefects mode (Defect.met (j.defects limit path depth)) (ofJson? limit depth j) := by
  induction j using Json.induction with
  | null | bool _ | number _ | string _ =>
    intro path depth
    by_cases hd : Fits limit depth
    · refine read_eq_of_fits hd ?_ ?_ rfl rfl
      · rw [read, if_pos (Policy.allows_iff.mpr hd)]
        rfl
      · simp [Json.defects, hd]
    · exact read_eq_of_not_fits hd
  | array js ih =>
    intro path depth
    by_cases hd : Fits limit depth
    · rw [read_array (Policy.allows_iff.mpr hd), readItems_eq hd ih, Json.defects_array hd]
      refine ofDefects_bind_pure ?_
      rw [ofJson?, Json.nesting, ofJson_array]
      split <;> rfl
    · exact read_eq_of_not_fits hd
  | object es ih =>
    intro path depth
    by_cases hd : Fits limit depth
    · rw [read_object (Policy.allows_iff.mpr hd), Json.defects_object hd, ofJson?,
        Json.nesting_object, ofJson_object]
      cases hc : (Json.object es).condition? with
      | none =>
        dsimp only
        rw [Nat.add_zero, if_pos hd]
        exact ofDefects_nil.symm
      | some c => exact readCondition_eq hd (ih _ (Json.operand_mem hc) _ _)
    · exact read_eq_of_not_fits hd

end Value

/-- The term that an object with a textual column gives. Of its direction only text is kept. -/
def OrderTerm.ofJson? : Json → Option OrderTerm
  | .object es =>
    match Entries.get? "column" es with
    | some (.string column) =>
      match Entries.get? "direction" es with
      | some (.string direction) => some ⟨column, some direction⟩
      | _ => some ⟨column, none⟩
    | _ => none
  | _ => none

theorem OrderTerm.read_eq {es : Entries Json} (h : Entries.get? "column" es ≠ none) :
    read ⟨mode, limit⟩ path es =
      ofDefects mode ((Json.object es).termDefects path) (ofJson? (.object es)) := by
  rw [read, Json.termDefects, ofJson?]
  cases hc : Entries.get? "column" es with
  | none => exact (h hc).elim
  | some column =>
    cases column with
    | string c =>
      cases hd : Entries.get? "direction" es with
      | none => exact ofDefects_nil.symm
      | some direction =>
        cases direction with
        | null | string _ => exact ofDefects_nil.symm
        | _ =>
          simp only [reject_eq]
          exact ofDefects_bind_pure rfl
    | _ =>
      simp only [reject_eq]
      exact ofDefects_bind_pure rfl

namespace OrderClause

theorem readTerm_eq : readTerm ⟨mode, limit⟩ path j =
    ofDefects mode (j.termDefects path) (OrderTerm.ofJson? j) := by
  cases j with
  | object es =>
    rw [readTerm, termEntries?]
    cases hc : Entries.get? "column" es with
    | none =>
      simp only [Json.termDefects, OrderTerm.ofJson?, hc, reject_eq]
      exact ofDefects_bind_pure rfl
    | some column => exact OrderTerm.read_eq (by simp [hc])
  | _ =>
    simp only [readTerm, termEntries?, reject_eq]
    exact ofDefects_bind_pure rfl

theorem readTerms_eq (js : List Json) (i : Nat) : readTerms ⟨mode, limit⟩ path i js =
    ofDefects mode ((js.zipIdx i).flatMap fun e => e.1.termDefects (path.item e.2))
      (js.filterMap OrderTerm.ofJson?) := by
  induction js generalizing i with
  | nil => exact ofDefects_nil.symm
  | cons j js ih =>
    rw [readTerms, readTerm_eq, List.zipIdx_cons, List.flatMap_cons]
    refine ofDefects_bind ?_
    rw [ih]
    refine ofDefects_bind_pure ?_
    rw [List.filterMap_cons]
    cases OrderTerm.ofJson? j <;> rfl

/-- The order that a document gives. Of a list the terms that are well formed are kept. -/
def ofJson? : Json → Option OrderClause
  | .null => none
  | .string name => some (.column name)
  | .array js => some (.terms (js.filterMap OrderTerm.ofJson?))
  | j => (OrderTerm.ofJson? j).map .term

theorem read_eq (j : Json) :
    read ⟨mode, limit⟩ path j = ofDefects mode (j.orderDefects path) (ofJson? j) := by
  cases j with
  | null | string _ => exact ofDefects_nil.symm
  | array js =>
    rw [read, readTerms_eq]
    exact ofDefects_bind_pure rfl
  | object es =>
    rw [Json.orderDefects]
    cases hc : Entries.get? "column" es with
    | none =>
      simp only [read, termEntries?, ofJson?, OrderTerm.ofJson?, hc, reject_eq]
      exact ofDefects_bind_pure rfl
    | some column =>
      simp only [read, termEntries?, hc, Option.isSome_some, if_true]
      rw [OrderTerm.read_eq (by simp [hc])]
      exact ofDefects_bind_pure rfl
  | bool _ | number _ =>
    simp only [read, termEntries?, reject_eq]
    exact ofDefects_bind_pure rfl

end OrderClause

end

section

variable {mode : Mode} {limit : Option Nat} {base : Option Path}

/-- The entries of a document are read one after the other. -/
theorem readEntries_foldlM_eq {α : Type} {f : α → String × Json → Reading α}
    {g : α → String × Json → α} {met : String × Json → List Defect}
    (h : ∀ a e, f a e = ofDefects mode (met e) (g a e)) (j : Json) (a : α) :
    (readEntries ⟨mode, limit⟩ base j >>= fun es => es.foldlM f a) =
      ofDefects mode (j.rootDefects base met) (j.entries.foldl g a) := by
  cases j with
  | object es =>
    rw [readEntries, pure_bind]
    exact ofDefects_foldlM h es a
  | null => exact ofDefects_nil.symm
  | _ =>
    simp only [readEntries, reject_eq, bind_assoc, pure_bind]
    exact ofDefects_bind_pure rfl

theorem ColumnMap.readField_eq (m : ColumnMap) (e : String × Json) :
    m.readField ⟨mode, limit⟩ base e.1 e.2 =
      ofDefects mode (Defect.met (e.2.defects limit (.under base e.1) 0))
        (m.insert? e.1 (Value.ofJson? limit 0 e.2)) := by
  rw [readField, Value.read_eq]
  exact ofDefects_bind_pure rfl

namespace ReadRequest

/-- The limit or the offset that a document gives. -/
def bound? (limit : Option Nat) (j : Json) : Option Value :=
  j.nonNull?.bind (Value.ofJson? limit 0)

theorem readBound_eq {path : Path} (j : Json) : readBound ⟨mode, limit⟩ path j =
    ofDefects mode (Defect.met (j.defects limit path 0)) (bound? limit j) := by
  cases j with
  | null =>
    have hnull : Json.null.defects limit path 0 = [] := by simp [Json.defects, Fits.zero]
    rw [hnull]
    exact ofDefects_nil.symm
  | _ => exact Value.read_eq _ _ _

/-- What an entry adds to a request. -/
def put (limit : Option Nat) (r : ReadRequest) (e : String × Json) : ReadRequest :=
  if e.1 = "orderBy" then { r with order := OrderClause.ofJson? e.2 }
  else if e.1 = "limit" then { r with limit := bound? limit e.2 }
  else if e.1 = "offset" then { r with offset := bound? limit e.2 }
  else { r with fields := r.fields.insert? e.1 (Value.ofJson? limit 0 e.2) }

theorem met_entryDefects_order {k : String} {j : Json} (hk : k = "orderBy") :
    Defect.met (entryDefects limit base (k, j)) = j.orderDefects (.under base k) := by
  rw [entryDefects, if_pos hk]
  exact Defect.met_eq_self Json.orderDefects_not_tooDeep

theorem readEntry_eq (r : ReadRequest) (e : String × Json) : readEntry ⟨mode, limit⟩ base r e =
    ofDefects mode (Defect.met (entryDefects limit base e)) (put limit r e) := by
  obtain ⟨k, j⟩ := e
  by_cases ho : k = "orderBy"
  · rw [met_entryDefects_order ho]
    simp only [readEntry, put, if_pos ho, OrderClause.read_eq]
    exact ofDefects_bind_pure rfl
  simp only [readEntry, put, entryDefects, if_neg ho]
  split
  · rw [readBound_eq]
    exact ofDefects_bind_pure rfl
  split
  · rw [readBound_eq]
    exact ofDefects_bind_pure rfl
  · rw [ColumnMap.readField_eq r.fields (k, j)]
    exact ofDefects_bind_pure rfl

/-- The request that a document gives. -/
def kept (limit : Option Nat) (j : Json) : ReadRequest := j.entries.foldl (put limit) {}

/-- The defects that the reading of a request meets. -/
def metDefects (limit : Option Nat) (base : Option Path) : Json → List Defect :=
  Json.rootDefects base fun e => Defect.met (entryDefects limit base e)

theorem read_eq (j : Json) :
    read ⟨mode, limit⟩ base j = ofDefects mode (metDefects limit base j) (kept limit j) :=
  readEntries_foldlM_eq readEntry_eq j {}

theorem head?_metDefects (j : Json) :
    (metDefects limit base j).head? = (defects limit base j).head? :=
  Json.head?_rootDefects (fun _ => Defect.head?_met) j

end ReadRequest

namespace InsertRequest

def metDefects (limit : Option Nat) : Json → List Defect :=
  Json.rootDefects none fun e => Defect.met (e.2.defects limit (.key e.1) 0)

/-- The request that a document gives. -/
def kept (limit : Option Nat) (j : Json) : InsertRequest :=
  ⟨j.entries.foldl (fun m e => m.insert? e.1 (Value.ofJson? limit 0 e.2)) ∅⟩

theorem ofJson_eq (j : Json) :
    ofJson ⟨mode, limit⟩ j = ofDefects mode (metDefects limit j) (kept limit j) := by
  rw [ofJson, ← bind_assoc, readEntries_foldlM_eq ColumnMap.readField_eq]
  exact ofDefects_bind_pure rfl

theorem head?_metDefects (j : Json) : (metDefects limit j).head? = (defects limit j).head? :=
  Json.head?_rootDefects (fun _ => Defect.head?_met) j

end InsertRequest

namespace UpdateRequest

/-- What an entry adds to a request. -/
def put (limit : Option Nat) (r : UpdateRequest) (e : String × Json) : UpdateRequest :=
  if e.1 = "queryOptions" then
    match e.2.nonNull? with
    | none => r
    | some j => r.selecting (ReadRequest.kept limit j)
  else { r with fields := r.fields.insert? e.1 (Value.ofJson? limit 0 e.2) }

def metEntryDefects (limit : Option Nat) (e : String × Json) : List Defect :=
  if e.1 = "queryOptions" then ReadRequest.metDefects limit (some (.key e.1)) e.2
  else Defect.met (e.2.defects limit (.key e.1) 0)

theorem readEntry_eq (r : UpdateRequest) (e : String × Json) : readEntry ⟨mode, limit⟩ r e =
    ofDefects mode (metEntryDefects limit e) (put limit r e) := by
  obtain ⟨k, j⟩ := e
  by_cases hk : k = "queryOptions"
  · simp only [readEntry, put, metEntryDefects, if_pos hk]
    cases j with
    | null => exact ofDefects_nil.symm
    | _ =>
      dsimp only
      rw [ReadRequest.read_eq]
      exact ofDefects_bind_pure rfl
  · simp only [readEntry, put, metEntryDefects, if_neg hk]
    rw [ColumnMap.readField_eq r.fields (k, j)]
    exact ofDefects_bind_pure rfl

def metDefects (limit : Option Nat) : Json → List Defect :=
  Json.rootDefects none (metEntryDefects limit)

/-- The request that a document gives. -/
def kept (limit : Option Nat) (j : Json) : UpdateRequest := j.entries.foldl (put limit) {}

theorem ofJson_eq (j : Json) :
    ofJson ⟨mode, limit⟩ j = ofDefects mode (metDefects limit j) (kept limit j) :=
  readEntries_foldlM_eq readEntry_eq j {}

theorem head?_metDefects (j : Json) : (metDefects limit j).head? = (defects limit j).head? := by
  refine Json.head?_rootDefects (fun e => ?_) j
  rw [metEntryDefects]
  split
  · exact ReadRequest.head?_metDefects e.2
  · exact Defect.head?_met

end UpdateRequest

end

end Criteria
