import Criteria.Proofs.Value.Equality
import Criteria.Request

/-! Equality of requests, and requests that differ only in the spelling of their values. -/
namespace Criteria

section

variable {α : Type} {R S : α → α → Prop} {o p : Option α}

theorem rel_imp (h : Option.Rel R o p) (hRS : ∀ a b, R a b → S a b) : Option.Rel S o p := by
  cases h with
  | none => exact .none
  | some hab => exact .some (hRS _ _ hab)

theorem forall₂_toList (h : Option.Rel R o p) : List.Forall₂ R o.toList p.toList := by
  cases h with
  | none => exact .nil
  | some hab => exact .cons hab .nil

theorem option_beq_iff_rel [BEq α] :
    (o == p) = true ↔ Option.Rel (· == ·) o p := by
  cases o <;> cases p <;> simp

end

variable {R S : Value → Value → Prop}

/-- The same columns in the same order, with related values. -/
def ColumnMap.Related (R : Value → Value → Prop) (m n : ColumnMap) : Prop :=
  List.Forall₂ (fun e f => e.1 = f.1 ∧ R e.2 f.2) m.entries n.entries

theorem ColumnMap.Related.imp {m n : ColumnMap} (h : m.Related R n) (hRS : ∀ v w, R v w → S v w) :
    m.Related S n :=
  List.Forall₂.imp (fun e f hef => ⟨hef.1, hRS e.2 f.2 hef.2⟩) h

theorem ColumnMap.beq_iff {m n : ColumnMap} :
    (m == n) = true ↔ m.Related (· == ·) n := by
  have hentries : (m == n) = (m.entries == n.entries) := rfl
  have hpair : ∀ e f : String × Value, (e == f) = (e.1 == f.1 && e.2 == f.2) := fun _ _ => rfl
  rw [hentries, beq_iff_forall₂, Related]
  simp only [hpair, Bool.and_eq_true, beq_iff_eq]

/-- The same conditions, order and range, with related values. -/
structure ReadRequest.Related (R : Value → Value → Prop) (r s : ReadRequest) : Prop where
  fields : r.fields.Related R s.fields
  order : r.order = s.order
  limit : Option.Rel R r.limit s.limit
  offset : Option.Rel R r.offset s.offset

theorem ReadRequest.Related.imp {r s : ReadRequest} (h : r.Related R s)
    (hRS : ∀ v w, R v w → S v w) : r.Related S s :=
  ⟨h.fields.imp hRS, h.order, rel_imp h.limit hRS, rel_imp h.offset hRS⟩

theorem ReadRequest.beq_iff {r s : ReadRequest} :
    (r == s) = true ↔ r.Related (· == ·) s := by
  have hparts : (r == s) = (r.fields == s.fields && (r.order == s.order &&
    (r.limit == s.limit && r.offset == s.offset))) := rfl
  simp only [hparts, Bool.and_eq_true, ColumnMap.beq_iff, option_beq_iff_rel, beq_iff_eq]
  exact ⟨fun ⟨hf, ho, hl, hs⟩ => ⟨hf, ho, hl, hs⟩, fun ⟨hf, ho, hl, hs⟩ => ⟨hf, ho, hl, hs⟩⟩

structure InsertRequest.Related (R : Value → Value → Prop) (r s : InsertRequest) : Prop where
  fields : r.fields.Related R s.fields

theorem InsertRequest.Related.imp {r s : InsertRequest} (h : r.Related R s)
    (hRS : ∀ v w, R v w → S v w) : r.Related S s :=
  ⟨h.fields.imp hRS⟩

theorem InsertRequest.beq_iff {r s : InsertRequest} :
    (r == s) = true ↔ r.Related (· == ·) s := by
  have hfields : (r == s) = (r.fields == s.fields) := rfl
  rw [hfields, ColumnMap.beq_iff]
  exact ⟨fun h => ⟨h⟩, fun h => h.fields⟩

/-- The same assignments and selection, with related values. -/
structure UpdateRequest.Related (R : Value → Value → Prop) (r s : UpdateRequest) : Prop where
  fields : r.fields.Related R s.fields
  selection : Option.Rel (ReadRequest.Related R) r.selection s.selection

theorem UpdateRequest.Related.imp {r s : UpdateRequest} (h : r.Related R s)
    (hRS : ∀ v w, R v w → S v w) : r.Related S s :=
  ⟨h.fields.imp hRS, rel_imp h.selection fun _ _ hsel => hsel.imp hRS⟩

theorem UpdateRequest.beq_iff {r s : UpdateRequest} :
    (r == s) = true ↔ r.Related (· == ·) s := by
  have hparts : (r == s) = (r.fields == s.fields && r.selection == s.selection) := rfl
  simp only [hparts, Bool.and_eq_true, ColumnMap.beq_iff, option_beq_iff_rel, ReadRequest.beq_iff]
  exact ⟨fun ⟨hf, hs⟩ => ⟨hf, hs⟩, fun ⟨hf, hs⟩ => ⟨hf, hs⟩⟩

/-- The same data in another spelling, none of it a not-a-number. -/
structure Value.SameData (v w : Value) : Prop where
  respelled : v.Respelled w
  wellFormed : v.WellFormed
  number : ∀ part, v.Holds part → ¬part.IsNaN

theorem Value.SameData.beq {v w : Value} (h : v.SameData w) : (v == w) = true := by
  have hself : (v == v) = true := (beq_self_iff h.wellFormed).mpr h.number
  rw [h.respelled.beq_congr h.wellFormed] at hself
  exact (h.respelled.wellFormed h.wellFormed).beq_symm hself

end Criteria
