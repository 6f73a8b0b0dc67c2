import Criteria.Call
import Criteria.Proofs.Json.Writing
import Criteria.Proofs.Value.Basic

/-! A value has one text, which is written directly or through its tree. -/
namespace Criteria

/-- The compact JSON text of a value. -/
inductive Value.Written : Value → String → Prop where
  | null : Written .null "null"
  | bool {b : Bool} : Written (.bool b) (if b then "true" else "false")
  | int {n : Int64} : Written (.int n) (toString n.toInt)
  | finite {x : Binary64} (h : x.isFinite = true) : Written (.float x) (x.text Json.floatLayout)
  | notFinite {x : Binary64} (h : x.isFinite = false) : Written (.float x) "null"
  | text {s : String} : Written (.text s) (Json.quote s)
  | timestamp {t : Timestamp} : Written (.timestamp t) (Json.quote t.text)
  | uuid {u : Uuid} : Written (.uuid u) (Json.quote u.text)
  | object {es : List (String × Json)} {s : String} (h : (Json.object es).Written s) :
      Written (.object es) s
  | comparison {o s : String} {v : Value} (operand : Written v s) :
      Written (.comparison o v)
        ("\x7b\"operator\":" ++ Json.quote o ++ ",\"value\":" ++ s ++ "\x7d")
  | list {vs : List Value} (text : Value → String) (items : ∀ v ∈ vs, Written v (text v)) :
      Written (.list vs) ("[" ++ ",".intercalate (vs.map text) ++ "]")

namespace Value

variable {v : Value} {s : String}

theorem exists_written (v : Value) : ∃ s, v.Written s := by
  induction v using Value.induction with
  | null => exact ⟨_, .null⟩
  | bool b => exact ⟨_, .bool⟩
  | int n => exact ⟨_, .int⟩
  | float x =>
    cases h : x.isFinite with
    | true => exact ⟨_, .finite h⟩
    | false => exact ⟨_, .notFinite h⟩
  | text s => exact ⟨_, .text⟩
  | timestamp t => exact ⟨_, .timestamp⟩
  | uuid u => exact ⟨_, .uuid⟩
  | object es =>
    obtain ⟨s, hs⟩ := (Json.object es).exists_written
    exact ⟨s, .object hs⟩
  | comparison o v ih =>
    obtain ⟨s, hs⟩ := ih
    exact ⟨_, .comparison hs⟩
  | list vs ih =>
    choose! text htext using ih
    exact ⟨_, .list text htext⟩

theorem renders_eq_map (vs : List Value) : renders vs = vs.map render := by
  induction vs with
  | nil => rfl
  | cons v vs ih => simp [renders, ih]

/-- The two entries of a comparison. -/
theorem objectText_comparison (o s : String) :
    Json.objectText [("operator", Json.quote o), ("value", s)] =
      "\x7b\"operator\":" ++ Json.quote o ++ ",\"value\":" ++ s ++ "\x7d" := by
  have hoperator : Json.quote "operator" = "\"operator\"" := by decide
  have hvalue : Json.quote "value" = "\"value\"" := by decide
  rw [← String.toList_inj]
  simp [Json.objectText, hoperator, hvalue]

theorem Written.render_eq (h : v.Written s) : v.render = s := by
  induction h with
  | finite h => simp [render, h]
  | notFinite h => simp [render, h]
  | object h => rw [render, h.text_eq]
  | comparison _ ih => rw [render, ih, objectText_comparison]
  | @list vs text _ ih =>
    have hitems : vs.map render = vs.map text := List.map_congr_left ih
    rw [render, renders_eq_map, hitems, Json.arrayText]
  | _ => rfl

theorem Written.text_toJson (h : v.Written s) : v.toJson.text = s := by
  induction h with
  | @bool b => cases b <;> rfl
  | finite h => simp [toJson, h, Json.text, Json.Number.text]
  | notFinite h => simp [toJson, h, Json.text]
  | object h => rw [toJson, h.text_eq]
  | @comparison o _ v _ ih =>
    have htext : (Value.comparison o v).toJson.text =
        Json.objectText [("operator", Json.quote o), ("value", v.toJson.text)] := by
      simp [toJson, Json.text]
    rw [htext, ih, objectText_comparison]
  | @list vs text _ ih =>
    have hitems : vs.map (fun v => v.toJson.text) = vs.map text := List.map_congr_left ih
    simp [toJson, Json.text, Json.arrayText, Function.comp_def, hitems]
  | _ => rfl

theorem text_toJson_eq_render (v : Value) : v.toJson.text = v.render := by
  obtain ⟨s, hs⟩ := exists_written v
  exact hs.text_toJson.trans hs.render_eq.symm

end Value

/-- What a call records besides its name. -/
def Call.record : Call → Entries Json
  | whereEq c v | value c v | set c v => [("column", .string c), ("value", v.toJson)]
  | whereOp c o v => [("column", .string c), ("operator", .string o), ("value", v.toJson)]
  | whereIn c vs => [("column", .string c), ("values", .array (vs.map Value.toJson))]
  | orderBy t =>
    [("column", .string t.column), ("direction", (t.direction.map Json.string).getD .null)]
  | limit v | offset v => [("value", v.toJson)]

/-- The tree of a call, its name first. -/
def Call.toJson (c : Call) : Json := .object (("call", .string c.name) :: c.record)

theorem Call.text_record (c : Call) : (c.record.map fun e => (e.1, e.2.text)) = c.members := by
  cases c with
  | whereIn column vs =>
    simp [record, members, Json.text, Function.comp_def, Value.text_toJson_eq_render]
  | orderBy t => cases h : t.direction <;> simp [record, members, Json.text, h]
  | _ => simp [record, members, Json.text, Value.text_toJson_eq_render]

theorem Call.text_toJson (c : Call) : c.toJson.text = c.render := by
  simp [toJson, render, Json.text, text_record]

end Criteria
