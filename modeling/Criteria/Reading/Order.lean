import Criteria.Json.Basic
import Criteria.OrderClause
import Criteria.Reading.Basic

/-! Reading the order of a request. -/
namespace Criteria

/-- A term must name its column. A direction that is not text is lost, but the column still
sorts. -/
def OrderTerm.read (policy : Policy) (path : Path) (entries : Entries Json) :
    Reading (Option OrderTerm) :=
  match entries.get? "column" with
  | some (.string column) =>
    match entries.get? "direction" with
    | none | some .null => return some ⟨column, none⟩
    | some (.string direction) => return some ⟨column, some direction⟩
    | some _ => do
      policy.reject (path.member "direction") .directionNotText
      return some ⟨column, none⟩
  | _ => do
    policy.reject (path.member "column") .columnNotText
    return none

namespace OrderClause

/-- The entries of an object that has a column, be it well formed or not. -/
def termEntries? : Json → Option (Entries Json)
  | .object es => if (Entries.get? "column" es).isSome then some es else none
  | _ => none

/-- An item of a list of terms. -/
def readTerm (policy : Policy) (path : Path) (j : Json) : Reading (Option OrderTerm) :=
  match termEntries? j with
  | some es => OrderTerm.read policy path es
  | none => do
    policy.reject path .termWithoutColumn
    return none

/-- The terms of a list, less those that are malformed. -/
def readTerms (policy : Policy) (path : Path) (i : Nat) : List Json → Reading (List OrderTerm)
  | [] => return []
  | j :: js => do
    let term ← readTerm policy (path.item i) j
    return term.toList ++ (← readTerms policy path (i + 1) js)

/-- A column, a term or a list of terms; null is no order. -/
def read (policy : Policy) (path : Path) (j : Json) : Reading (Option OrderClause) :=
  match j with
  | .null => return none
  | .string name => return some (.column name)
  | .array js => return some (.terms (← readTerms policy path 0 js))
  | j =>
    match termEntries? j with
    | some es => return (← OrderTerm.read policy path es).map .term
    | none => do
      policy.reject path .orderNotUnderstood
      return none

end OrderClause

end Criteria
