import Criteria.Proofs.Numeric.Nearest
import Criteria.Proofs.Value.Image

/-! The form that JSON takes when it is read as a value and written again. -/
namespace Criteria

namespace Json

/-- An integer beyond the signed range becomes a float. -/
def Number.normalize : Number → Number
  | .int n bounded =>
    if h : 9223372036854775808 ≤ n then .float (.ofInt n) (Binary64.isFinite_ofInt h bounded.2)
    else .int n bounded
  | .float x finite => .float x finite

/-- A condition with its operator first. Any other object is kept as it is. -/
def normalCondition (whole : List (String × Json)) (operator operand : Json) : Json :=
  match operator with
  | .string o => .object [("operator", .string o), ("value", operand)]
  | _ => .object whole

mutual

/-- Numbers and conditions are put into their form, as far as arrays and conditions lead. -/
def normalize : Json → Json
  | .number n => .number n.normalize
  | .array js => .array (normalizeItems js)
  | .object [(k, x), (l, y)] =>
    if k = "operator" ∧ l = "value" then normalCondition [(k, x), (l, y)] x (normalize y)
    else if k = "value" ∧ l = "operator" then normalCondition [(k, x), (l, y)] y (normalize x)
    else .object [(k, x), (l, y)]
  | j => j

def normalizeItems : List Json → List Json
  | [] => []
  | j :: js => normalize j :: normalizeItems js

end

theorem normalizeItems_eq_map (js : List Json) : normalizeItems js = js.map normalize := by
  induction js with
  | nil => rfl
  | cons j js ih => rw [normalizeItems, ih, List.map_cons]

theorem normalize_object (es : Entries Json) : normalize (.object es) =
    match (Json.object es).condition? with
    | some (operator, operand) => normalCondition es operator operand.normalize
    | none => .object es := by
  match es with
  | [] | [_] | _ :: _ :: _ :: _ => simp [normalize, condition?]
  | [(k, x), (l, y)] =>
    rw [normalize, condition?]
    split
    · rfl
    · split <;> rfl

example : normalize (.object [("value", .object [("value", .null), ("operator", .null)]),
      ("operator", .string "eq")]) =
    .object [("operator", .string "eq"),
      ("value", .object [("value", .null), ("operator", .null)])] := rfl

theorem Number.normalize_nearest {n : Int} (bounded : -9223372036854775808 ≤ n ∧
      n < 18446744073709551616) (h : 9223372036854775808 ≤ n) : ∃ x finite,
    (Number.int n bounded).normalize = .float x finite ∧ x.IsNearest n := by
  obtain ⟨m, rfl⟩ := Int.eq_ofNat_of_zero_le (show 0 ≤ n by omega)
  have hnearest := Binary64.isNearest_ofInt (n := m) (by omega) (by omega)
  exact ⟨_, _, dif_pos h, hnearest⟩

end Json

namespace Value

theorem toJson_ofNumber (n : Json.Number) : (ofNumber n).toJson = .number n.normalize := by
  cases n with
  | int n bounded =>
    rcases lt_or_ge n 9223372036854775808 with hn | hn
    · have hword : (Int64.ofInt n).toInt = n := Int64.toInt_ofInt_of_le bounded.1 hn
      simp only [ofNumber, if_pos hn, toJson, Json.Number.ofInt64, hword, Json.Number.normalize,
        dif_neg hn.not_ge]
    · have hfinite : (Binary64.ofInt n).isFinite = true := Binary64.isFinite_ofInt hn bounded.2
      simp only [ofNumber, if_neg hn.not_gt, toJson, dif_pos hfinite, Json.Number.normalize,
        dif_pos hn]
  | float x finite => exact dif_pos finite

/-- Reading and writing changes nothing but the form. -/
theorem toJson_ofJson (j : Json) : (ofJson j).toJson = j.normalize := by
  induction j using Json.induction with
  | null | bool _ | string _ => rfl
  | number n => exact toJson_ofNumber n
  | array js ih =>
    have hitems : js.map (toJson ∘ ofJson) = js.map Json.normalize := List.map_congr_left ih
    rw [ofJson_array, toJson, toJsons_eq_map, List.map_map, hitems, Json.normalize,
      Json.normalizeItems_eq_map]
  | object es ih =>
    rw [ofJson_object, Json.normalize_object]
    cases hc : (Json.object es).condition? with
    | none => rfl
    | some c =>
      obtain ⟨operator, operand⟩ := c
      cases operator with
      | string o =>
        have hoperand : (ofJson operand).toJson = operand.normalize := ih _ (Json.operand_mem hc)
        simp only [ofCondition, Json.normalCondition, toJson, hoperand]
      | _ => rfl

/-- What becomes of a JSON value that is read without a limit and written again. -/
structure Normalizes (j : Json) : Prop where
  /-- Reading keeps the value, so that null never stands in for another one. -/
  read : (reading j).result = .ok (some (ofJson j))
  null_iff : ofJson j = .null ↔ j = .null
  written : (ofJson j).toJson = j.normalize
  again : ofJson (ofJson j).toJson = ofJson j

/-- Reading JSON and writing it again changes nothing but the form, in which an integer beyond the
signed range is the nearest float. -/
theorem ofJson_normalizes : (∀ j, Normalizes j) ∧
    ∀ n bounded, 9223372036854775808 ≤ n → ∃ x finite,
      (Json.Number.int n bounded).normalize = .float x finite ∧ x.IsNearest n := by
  refine ⟨fun j => ⟨read_unlimited j .root 0, ?_, toJson_ofJson j, ?_⟩, ?_⟩
  · constructor
    · intro h
      exact not_imp_not.mp ofJson_ne_null h
    · rintro rfl
      rfl
  · exact (canonical_ofJson j).ofJson_toJson
  · intro n bounded h
    exact Json.Number.normalize_nearest bounded h

end Value

end Criteria
