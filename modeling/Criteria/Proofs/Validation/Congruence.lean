import Criteria.Proofs.AllowList
import Criteria.Proofs.Request.Equality
import Criteria.Validation

/-! Equal requests have the same report. -/
namespace Criteria

variable {a b : AllowList} {m n : ColumnMap} {base : Option Path} {v w : Value}

theorem ColumnMap.Related.columns_eq {R : Value → Value → Prop} (h : m.Related R n) :
    m.columns = n.columns := by
  have hkeys : List.Forall₂ Eq (m.entries.map Prod.fst) (n.entries.map Prod.fst) :=
    List.rel_map (fun _ _ hef => hef.1) h
  rwa [List.forall₂_eq_eq_eq] at hkeys

theorem Value.isEmptyList_eq_of_beq (h : (v == w) = true) :
    v.items?.any List.isEmpty = w.items?.any List.isEmpty := by
  cases beq_iff_matches.mp h with
  | @list vs ws hvs => cases beq_iff_forall₂.mp hvs <;> rfl
  | _ => rfl

namespace Validation

theorem unknownColumns_congr (hab : (a == b) = true) (hmn : m.columns = n.columns) :
    unknownColumns base a m = unknownColumns base b n := by
  rw [unknownColumns, unknownColumns, AllowList.contains_congr hab, hmn]

theorem emptyLists_congr (h : m.Related (· == ·) n) :
    emptyLists base m = emptyLists base n := by
  rw [emptyLists, emptyLists, ← List.forall₂_eq_eq_eq, List.forall₂_map_left_iff,
    List.forall₂_map_right_iff]
  refine List.Forall₂.imp ?_ (List.rel_filter ?_ h)
  · intro e f hef
    rw [hef.1]
  · intro e f hef
    simp only [Value.isEmptyList_eq_of_beq hef.2]

theorem unknownTerms_congr (hab : (a == b) = true) :
    unknownTerms base a = unknownTerms base b := by
  funext order
  rw [unknownTerms, unknownTerms, AllowList.contains_congr hab]

/-- Of a float the check sees no more than its fraction and on which side of zero it is. -/
theorem bound_congr {key : String} {nonInteger negative : Code} (h : (v == w) = true) :
    bound base key nonInteger negative v = bound base key nonInteger negative w := by
  cases Value.beq_iff_matches.mp h with
  | float hxy =>
    rw [bound, Binary64.isIntegral_congr hxy, Binary64.belowZero_congr hxy]
    rfl
  | _ => rfl

theorem getD_map_congr {α β : Type} {R : α → α → Prop} {o p : Option α} {f g : α → β} {d : β}
    (h : Option.Rel R o p) (hfg : ∀ x y, R x y → f x = g y) :
    (o.map f).getD d = (p.map g).getD d := by
  cases h with
  | none => rfl
  | some hxy => exact hfg _ _ hxy

theorem readAt_congr {r s : ReadRequest} (hab : (a == b) = true)
    (h : r.Related (· == ·) s) : readAt base a r = readAt base b s := by
  rw [readAt, readAt, unknownColumns_congr hab h.fields.columns_eq, emptyLists_congr h.fields,
    unknownTerms_congr hab, h.order, getD_map_congr h.limit fun _ _ => bound_congr,
    getD_map_congr h.offset fun _ _ => bound_congr]

theorem insert_congr {r s : InsertRequest} (hab : (a == b) = true)
    (h : r.Related (· == ·) s) : insert a r = insert b s := by
  rw [insert, insert, unknownColumns_congr hab h.fields.columns_eq]

theorem update_congr {r s : UpdateRequest} (hab : (a == b) = true)
    (h : r.Related (· == ·) s) : update a r = update b s := by
  rw [update, update, unknownColumns_congr hab h.fields.columns_eq,
    getD_map_congr h.selection fun _ _ => readAt_congr hab]

end Validation

end Criteria
