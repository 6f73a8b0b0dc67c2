import Criteria.AllowList
import Criteria.Compilation.Basic
import Criteria.Request

/-! Compiling requests into calls. -/
namespace Criteria.Compilation

variable {σ ε : Type}

/-- An item of a list that is a conjunction. A list within it is a membership test. -/
def item (column : String) : Value → Compilation σ ε Unit
  | .comparison o v => call (.whereOp column o v)
  | .list vs => call (.whereIn column vs)
  | v => call (.whereEq column v)

/-- The conditions of one field. Null is compared like any other value. -/
def condition (column : String) : Value → Compilation σ ε Unit
  | .comparison o v => call (.whereOp column o v)
  | .list vs =>
    match Shape.ofList? vs with
    | none => notice (.emptyList column)
    | some shape => do
      notice (.list column vs.length shape)
      match shape with
      | .membership => call (.whereIn column vs)
      | .conjunction => vs.forM (item column)
  | v => call (.whereEq column v)

/-- Compiles the fields whose columns are allowed, each with `f`. -/
def fields (m : ColumnMap) (allowed : AllowList) (f : String → Value → Compilation σ ε Unit) :
    Compilation σ ε Unit :=
  m.entries.forM fun e =>
    if allowed.contains e.1 then f e.1 e.2 else notice (.notAllowed e.1)

/-- The terms of an order, one after the other. A bare column has no direction. -/
def order : OrderClause → Compilation σ ε Unit
  | .column name => call (.orderBy ⟨name, none⟩)
  | .term t => call (.orderBy t)
  | .terms ts => ts.forM fun t => call (.orderBy t)

/-- Conditions, then terms of the order, then limit and offset. Only conditions are subject to the
allow-list. -/
def read (request : Option ReadRequest) (allowed : AllowList) : Compilation σ ε Unit :=
  match request with
  | none => return
  | some r => do
    fields r.fields allowed condition
    if let some o := r.order then order o
    if let some v := r.limit then call (.limit v)
    if let some v := r.offset then call (.offset v)

/-- Selecting rows is reading them. -/
def select (request : Option ReadRequest) (allowed : AllowList) : Compilation σ ε Unit :=
  read request allowed

def delete (request : Option DeleteRequest) (allowed : AllowList) : Compilation σ ε Unit :=
  read request allowed

/-- One value for each allowed column, whatever it is. -/
def insert (request : Option InsertRequest) (allowed : AllowList) : Compilation σ ε Unit :=
  match request with
  | none => return
  | some r => fields r.fields allowed fun column v => call (.value column v)

/-- One assignment for each allowed column, then the conditions on the rows. -/
def update (request : Option UpdateRequest) (allowed : AllowList) : Compilation σ ε Unit :=
  match request with
  | none => return
  | some r => do
    fields r.fields allowed fun column v => call (.set column v)
    read r.selection allowed

end Criteria.Compilation
