import Criteria.Identifier.Parser

/-! The columns that requests may name. -/
namespace Criteria

/-- A set of names. -/
structure AllowList where
  names : List String
  nodup : names.Nodup

namespace AllowList

instance : EmptyCollection AllowList := ⟨[], List.nodup_nil⟩

variable (allowed : AllowList) (name : String)

def contains : Bool := name ∈ allowed.names

instance : Membership String AllowList := ⟨fun allowed name => name ∈ allowed.names⟩

instance : Decidable (name ∈ allowed) := inferInstanceAs (Decidable (name ∈ allowed.names))

def insert : AllowList :=
  if h : name ∈ allowed.names then allowed
  else ⟨name :: allowed.names, List.nodup_cons.2 ⟨h, allowed.nodup⟩⟩

/-- Whether the name is new goes with the list. -/
def add : Bool × AllowList := (!allowed.contains name, allowed.insert name)

def size : Nat := allowed.names.length

def isEmpty : Bool := allowed.names.isEmpty

/-- The names in the order of their code points. -/
def sorted : List String := allowed.names.mergeSort (· ≤ ·)

def ofList (names : List String) : AllowList := names.foldl insert ∅

/-- A list of identifiers, or what is wrong with the first name that is none. -/
def parse (names : List String) : Except Error AllowList :=
  names.foldlM (fun allowed name => (Identifier.ofString name).map fun _ => allowed.insert name) ∅

/-- Lists are equal as sets. -/
instance : BEq AllowList := ⟨fun a b => a.size == b.size && a.names.all b.contains⟩

variable {allowed name}

theorem contains_iff : allowed.contains name = true ↔ name ∈ allowed := decide_eq_true_iff

theorem mem_insert_iff {n : String} : n ∈ allowed.insert name ↔ n = name ∨ n ∈ allowed := by
  rw [insert]
  split
  · next h =>
    refine ⟨Or.inr, ?_⟩
    rintro (rfl | hn)
    · exact h
    · exact hn
  · exact List.mem_cons

theorem not_mem_empty : name ∉ (∅ : AllowList) := List.not_mem_nil

end AllowList

end Criteria
