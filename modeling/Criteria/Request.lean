import Criteria.ColumnMap
import Criteria.OrderClause

/-! Requests: what to read, insert, update or delete. -/
namespace Criteria

/-- Conditions on columns, with an order and a range of rows. The limit and the offset may be any
values; what they mean is left to whoever runs the request. -/
structure ReadRequest where
  fields : ColumnMap := ∅
  order : Option OrderClause := none
  limit : Option Value := none
  offset : Option Value := none
deriving BEq

/-- Rows are deleted by the same conditions as they are read. -/
abbrev DeleteRequest := ReadRequest

structure InsertRequest where
  fields : ColumnMap := ∅
deriving BEq

/-- New values, and the rows that take them. -/
structure UpdateRequest where
  fields : ColumnMap := ∅
  selection : Option ReadRequest := none
deriving BEq

namespace ReadRequest

variable (r : ReadRequest)

def filter (column : String) (v : Value) : ReadRequest :=
  { r with fields := r.fields.insert column v }

def filter? (column : String) (v : Option Value) : ReadRequest :=
  { r with fields := r.fields.insert? column v }

def orderBy (order : OrderClause) : ReadRequest := { r with order := some order }

def withLimit (v : Value) : ReadRequest := { r with limit := some v }

def withOffset (v : Value) : ReadRequest := { r with offset := some v }

end ReadRequest

namespace InsertRequest

variable (r : InsertRequest)

def value (column : String) (v : Value) : InsertRequest := ⟨r.fields.insert column v⟩

def value? (column : String) (v : Option Value) : InsertRequest := ⟨r.fields.insert? column v⟩

end InsertRequest

namespace UpdateRequest

variable (r : UpdateRequest)

def assign (column : String) (v : Value) : UpdateRequest :=
  { r with fields := r.fields.insert column v }

def assign? (column : String) (v : Option Value) : UpdateRequest :=
  { r with fields := r.fields.insert? column v }

def selecting (selection : ReadRequest) : UpdateRequest := { r with selection := some selection }

end UpdateRequest

end Criteria
