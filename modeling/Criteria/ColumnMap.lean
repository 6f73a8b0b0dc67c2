import Criteria.Value.Basic

/-! Values by column, in the order in which the columns were first given. -/
namespace Criteria

structure ColumnMap where
  entries : Entries Value
  nodup : entries.keys.Nodup

namespace ColumnMap

instance : EmptyCollection ColumnMap := ⟨[], List.nodup_nil⟩

/-- Maps are equal entry by entry, in order. -/
instance : BEq ColumnMap := ⟨fun m n => m.entries == n.entries⟩

variable (m : ColumnMap) (column : String)

def get? : Option Value := Entries.get? column m.entries

/-- A present column keeps its position. -/
def insert (v : Value) : ColumnMap :=
  ⟨Entries.insert column v m.entries, Entries.nodup_insert m.nodup⟩

/-- No value leaves the map as it is. -/
def insert? (v : Option Value) : ColumnMap :=
  match v with
  | some v => m.insert column v
  | none => m

def erase : ColumnMap := ⟨Entries.erase column m.entries, Entries.nodup_erase m.nodup⟩

/-- The value that the column had goes with it. -/
def remove : Option Value × ColumnMap :=
  let r := Entries.remove column m.entries
  (r.1, ⟨r.2, Entries.nodup_remove m.nodup⟩)

theorem remove_eq : m.remove column = (m.get? column, m.erase column) := by
  simp only [remove, Entries.remove_eq]
  rfl

def columns : List String := m.entries.keys

def size : Nat := m.entries.length

def isEmpty : Bool := m.entries.isEmpty

def ofList (entries : List (String × Value)) : ColumnMap :=
  entries.foldl (fun m e => m.insert e.1 e.2) ∅

end ColumnMap

end Criteria
