import Criteria.Reading.Order
import Criteria.Reading.Value
import Criteria.Request

/-! Reading requests from documents. -/
namespace Criteria

/-- The entries of a document. Null has none, and anything but an object is malformed. -/
def readEntries (policy : Policy) (base : Option Path) : Json → Reading (List (String × Json))
  | .object entries => return entries
  | .null => return []
  | _ => do
    policy.reject (base.getD .root) .notObject
    return []

/-- A field that cannot be kept is left out. -/
def ColumnMap.readField (policy : Policy) (base : Option Path) (m : ColumnMap) (key : String)
    (j : Json) : Reading ColumnMap :=
  return m.insert? key (← Value.read policy (Path.under base key) 0 j)

namespace ReadRequest

/-- A limit or an offset; null is none. -/
def readBound (policy : Policy) (path : Path) : Json → Reading (Option Value)
  | .null => return none
  | j => Value.read policy path 0 j

/-- Three keys are reserved, and all others are fields. -/
def readEntry (policy : Policy) (base : Option Path) (r : ReadRequest) (e : String × Json) :
    Reading ReadRequest :=
  let path := Path.under base e.1
  if e.1 = "orderBy" then return { r with order := ← OrderClause.read policy path e.2 }
  else if e.1 = "limit" then return { r with limit := ← readBound policy path e.2 }
  else if e.1 = "offset" then return { r with offset := ← readBound policy path e.2 }
  else return { r with fields := ← r.fields.readField policy base e.1 e.2 }

/-- The request that stands at a place of a document. -/
def read (policy : Policy) (base : Option Path) (j : Json) : Reading ReadRequest := do
  (← readEntries policy base j).foldlM (readEntry policy base) {}

def ofJson (policy : Policy) (j : Json) : Reading ReadRequest := read policy none j

end ReadRequest

/-- Every key is a field. -/
def InsertRequest.ofJson (policy : Policy) (j : Json) : Reading InsertRequest := do
  let entries ← readEntries policy none j
  return ⟨← entries.foldlM (fun m e => m.readField policy none e.1 e.2) ∅⟩

namespace UpdateRequest

/-- One key is reserved for the rows to update, and all others are fields. -/
def readEntry (policy : Policy) (r : UpdateRequest) (e : String × Json) : Reading UpdateRequest :=
  if e.1 = "queryOptions" then
    match e.2 with
    | .null => return r
    | j => return r.selecting (← ReadRequest.read policy (some (.key e.1)) j)
  else return { r with fields := ← r.fields.readField policy none e.1 e.2 }

def ofJson (policy : Policy) (j : Json) : Reading UpdateRequest := do
  (← readEntries policy none j).foldlM (readEntry policy) {}

end UpdateRequest

end Criteria
