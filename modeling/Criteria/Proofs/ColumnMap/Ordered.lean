import Criteria.ColumnMap
import Mathlib.Data.List.Induction
import Mathlib.Data.List.Nodup

/-! What a map in insertion order is, apart from the way it is stored. -/
namespace Criteria

/-- The columns in order, and the value of every column that there is. -/
structure OrderedMap where
  columns : List String
  value : String → Option Value

namespace OrderedMap

variable (r : OrderedMap) (column : String)

def empty : OrderedMap := ⟨[], fun _ => none⟩

def put (v : Value) : OrderedMap :=
  ⟨if column ∈ r.columns then r.columns else r.columns ++ [column],
    Function.update r.value column (some v)⟩

def delete : OrderedMap :=
  ⟨r.columns.filter (· != column), Function.update r.value column none⟩

/-- Every column at the place where it is first given, with the value that it is last given. -/
def ofPairs (pairs : List (String × Value)) : OrderedMap :=
  ⟨(pairs.map Prod.fst).eraseDups, fun column => Entries.get? column pairs.reverse⟩

variable {r column} {v : Value} {pairs : List (String × Value)}

theorem columns_put : (r.put column v).columns =
    if column ∈ r.columns then r.columns else r.columns ++ [column] := rfl

theorem value_put : (r.put column v).value = Function.update r.value column (some v) := rfl

theorem columns_delete : (r.delete column).columns = r.columns.filter (· != column) := rfl

theorem value_delete : (r.delete column).value = Function.update r.value column none := rfl

theorem nodup_put (h : r.columns.Nodup) : (r.put column v).columns.Nodup := by
  rw [columns_put]
  split
  · exact h
  · rename_i hc
    refine List.nodup_append.mpr ⟨h, List.nodup_singleton column, ?_⟩
    intro a ha b hb hab
    rw [List.mem_singleton.mp hb] at hab
    exact hc (hab ▸ ha)

theorem nodup_delete (h : r.columns.Nodup) : (r.delete column).columns.Nodup := h.filter _

theorem columns_ofPairs_append_singleton : (ofPairs (pairs ++ [(column, v)])).columns =
    ((ofPairs pairs).put column v).columns := by
  have hsingle : [column].eraseDups = [column] := by simp [List.eraseDups_cons]
  rw [columns_put, ofPairs, ofPairs, List.map_append, List.eraseDups_append]
  by_cases hc : column ∈ pairs.map Prod.fst
  · simp [List.removeAll, hc]
  · simp [List.removeAll, hc, hsingle]

theorem value_ofPairs_append_singleton : (ofPairs (pairs ++ [(column, v)])).value =
    ((ofPairs pairs).put column v).value := by
  funext k
  rw [value_put, Function.update_apply, ofPairs, ofPairs, List.reverse_append]
  by_cases hk : k = column
  · simp [Entries.get?, hk]
  · simp [Entries.get?, hk, Ne.symm hk]

theorem ofPairs_append_singleton :
    ofPairs (pairs ++ [(column, v)]) = (ofPairs pairs).put column v :=
  congr (congrArg mk columns_ofPairs_append_singleton) value_ofPairs_append_singleton

theorem nodup_ofPairs (pairs : List (String × Value)) : (ofPairs pairs).columns.Nodup := by
  induction pairs using List.reverseRecOn with
  | nil => exact List.nodup_nil
  | append_singleton pairs p ih =>
    rw [ofPairs_append_singleton]
    exact nodup_put ih

end OrderedMap

namespace ColumnMap

/-- The map has the columns of `r` in the same order, with the same values. -/
structure Represents (m : ColumnMap) (r : OrderedMap) : Prop where
  columns : m.columns = r.columns
  value : ∀ column, m.get? column = r.value column

variable {m : ColumnMap} {r : OrderedMap} {column : String} {v : Value}

theorem represents_empty : Represents ∅ .empty := ⟨rfl, fun _ => rfl⟩

theorem Represents.insert (h : m.Represents r) : (m.insert column v).Represents (r.put column v) := by
  constructor
  · rw [OrderedMap.columns_put, ← h.columns]
    exact Entries.keys_insert
  · intro k
    rw [OrderedMap.value_put, Function.update_apply]
    split
    · subst k
      exact Entries.get?_insert_self
    · rename_i hk
      rw [← h.value k]
      exact Entries.get?_insert_of_ne hk

theorem Represents.insert? (h : m.Represents r) {v : Option Value} :
    (m.insert? column v).Represents (v.elim r (r.put column)) := by
  cases v with
  | none => exact h
  | some v => exact h.insert

theorem Represents.erase (h : m.Represents r) : (m.erase column).Represents (r.delete column) := by
  constructor
  · rw [OrderedMap.columns_delete, ← h.columns]
    exact Entries.keys_erase.trans (m.nodup.erase_eq_filter column)
  · intro k
    rw [OrderedMap.value_delete, Function.update_apply]
    split
    · subst k
      exact Entries.get?_erase_self m.nodup
    · rename_i hk
      rw [← h.value k]
      exact Entries.get?_erase_of_ne hk

theorem represents_ofList (pairs : List (String × Value)) :
    (ofList pairs).Represents (.ofPairs pairs) := by
  induction pairs using List.reverseRecOn with
  | nil => exact represents_empty
  | append_singleton pairs p ih =>
    rw [OrderedMap.ofPairs_append_singleton, ofList, List.foldl_append]
    exact ih.insert

end ColumnMap

end Criteria
