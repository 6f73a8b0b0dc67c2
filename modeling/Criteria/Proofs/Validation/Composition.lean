import Criteria.Proofs.Validation.Findings
import Criteria.Proofs.Validation.Parts

/-! Reports are made of smaller ones: that of an update of those of its two halves, that of an
insertion of part of that of a reading, and the error of two reports of their errors. -/
namespace Criteria.Validation

/-- The finding in a request that is the member `base` of another. -/
def Finding.under (base : String) (f : Finding) : Finding :=
  { f with field := base ++ "." ++ f.field }

def Report.under (base : String) (r : Report) : Report := ⟨r.items.map (Finding.under base)⟩

def Finding.line (f : Finding) : String := f.field ++ ": " ++ f.message

/-- The lines of all findings in order, with a semicolon between each two. -/
def linesText : List Finding → String
  | [] => ""
  | [f] => f.line
  | f :: g :: fs => f.line ++ "; " ++ linesText (g :: fs)

section

variable {base key : String} {allowed : AllowList} {m : ColumnMap} {r : ReadRequest} {v : Value}
  {order : OrderClause} {nonInteger negative : Code}

theorem fieldName_key : fieldName (some (.key base)) key = base ++ "." ++ key := rfl

theorem unknownColumns_key : unknownColumns (some (.key base)) allowed m =
    (unknownColumns none allowed m).map (Finding.under base) := by
  simp [unknownColumns, fieldName_key, Finding.under]

theorem emptyLists_key : emptyLists (some (.key base)) m =
    (emptyLists none m).map (Finding.under base) := by
  simp [emptyLists, fieldName_key, Finding.under]

theorem unknownTerms_key : unknownTerms (some (.key base)) allowed order =
    (unknownTerms none allowed order).map (Finding.under base) := by
  simp [unknownTerms, fieldName_key, Finding.under]

theorem bound_key : bound (some (.key base)) key nonInteger negative v =
    (bound none key nonInteger negative v).map (Finding.under base) := by
  simp only [bound, fieldName_key, fieldName_none]
  split
  · split <;> rfl
  · split
    · split <;> rfl
    · rfl
  · rfl

theorem getD_map_under {α : Type} {o : Option α} {g h : α → List Finding}
    (hg : ∀ a, g a = (h a).map (Finding.under base)) :
    (o.map g).getD [] = ((o.map h).getD []).map (Finding.under base) := by
  cases o with
  | none => rfl
  | some a => exact hg a

/-- Every check names its fields by the place of the request. -/
theorem parts_key : parts (some (.key base)) allowed r =
    (parts none allowed r).map (List.map (Finding.under base)) := by
  simp only [parts, List.map_cons, List.map_nil]
  rw [unknownColumns_key, emptyLists_key, getD_map_under fun _ => unknownTerms_key,
    getD_map_under fun _ => bound_key, getD_map_under fun _ => bound_key]

theorem readAt_key : readAt (some (.key base)) allowed r = (read allowed r).under base := by
  have hitems : (readAt (some (.key base)) allowed r).items =
      (read allowed r).items.map (Finding.under base) := by
    rw [read, items_readAt, items_readAt, parts_key, List.map_flatten]
  exact congrArg Report.mk hitems

end

theorem linesText_eq (fs : List Finding) :
    linesText fs = "; ".intercalate (fs.map Finding.line) := by
  induction fs with
  | nil => rfl
  | cons f fs ih =>
    cases fs with
    | nil => simp [linesText]
    | cons g fs => simp [linesText, ih]

theorem linesText_append {fs gs : List Finding} (hf : fs ≠ []) (hg : gs ≠ []) :
    linesText (fs ++ gs) = linesText fs ++ "; " ++ linesText gs := by
  have hf : fs.map Finding.line ≠ [] := by simpa using hf
  have hg : gs.map Finding.line ≠ [] := by simpa using hg
  rw [linesText_eq, linesText_eq, linesText_eq, List.map_append,
    String.intercalate_append_of_ne_nil hf hg]

namespace Report

variable {r s : Report} {e : Error}

theorem toExcept_eq_ok_iff : r.toExcept = .ok () ↔ r.items = [] := by
  rw [toExcept, isEmpty]
  cases r.items <;> simp

theorem toExcept_eq_error_iff :
    r.toExcept = .error e ↔ r.items ≠ [] ∧ e = .invalid (linesText r.items) := by
  have hline : (fun f : Finding => f.field ++ ": " ++ f.message) = Finding.line := rfl
  rw [toExcept, isEmpty, hline, ← linesText_eq]
  cases r.items <;> simp [eq_comm]

/-- Reports with findings have the lines of both in their error. -/
theorem toExcept_append {a b : String} (hr : r.toExcept = .error (.invalid a))
    (hs : s.toExcept = .error (.invalid b)) :
    (r ++ s).toExcept = .error (.invalid (a ++ "; " ++ b)) := by
  obtain ⟨hrne, ha⟩ := toExcept_eq_error_iff.mp hr
  obtain ⟨hsne, hb⟩ := toExcept_eq_error_iff.mp hs
  cases ha
  cases hb
  have hitems : (r ++ s).items = r.items ++ s.items := rfl
  rw [toExcept_eq_error_iff, hitems, linesText_append hrne hsne]
  exact ⟨List.append_ne_nil_of_left_ne_nil hrne s.items, rfl⟩

end Report

/-- How reports are made of smaller ones, and their errors of lines. -/
structure Composes (allowed : AllowList) : Prop where
  update : ∀ r : UpdateRequest, Validation.update allowed r =
    Validation.insert allowed ⟨r.fields⟩ ++
      (r.selection.map fun q => (Validation.read allowed q).under "queryOptions").getD {}
  insert : ∀ m : ColumnMap, (Validation.insert allowed ⟨m⟩).items =
    (Validation.read allowed { fields := m }).of [.unknownColumn]
  ok_iff : ∀ r : Report, r.toExcept = .ok () ↔ r.items = []
  error : ∀ r : Report, r.items ≠ [] → r.toExcept = .error (.invalid (linesText r.items))
  append : ∀ (r s : Report) (a b : String), r.toExcept = .error (.invalid a) →
    s.toExcept = .error (.invalid b) → (r ++ s).toExcept = .error (.invalid (a ++ "; " ++ b))

/-- No check of an insertion or of an update drifts from that of a reading. -/
theorem reports_compose (allowed : AllowList) : Composes allowed := by
  constructor
  · intro r
    rw [Validation.update]
    cases r.selection with
    | none => rfl
    | some q => exact congrArg (_ ++ ·) readAt_key
  · intro m
    obtain ⟨hcolumns, -⟩ := of_codes none allowed { fields := m }
    exact hcolumns.symm
  · intro r
    exact Report.toExcept_eq_ok_iff
  · intro r h
    exact Report.toExcept_eq_error_iff.mpr ⟨h, rfl⟩
  · intro r s a b hr hs
    exact Report.toExcept_append hr hs

end Criteria.Validation
