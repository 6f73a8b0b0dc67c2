import Criteria.Json.Printer
import Criteria.Proofs.Json.Basic
import Mathlib.Tactic.Choose

/-! The compact text of a JSON value, apart from the way it is put together. -/
namespace Criteria.Json

/-- Items stand between brackets and entries between braces, with a comma between each two. An entry
is its quoted key, a colon and its value. -/
inductive Written : Json → String → Prop where
  | null : Written .null "null"
  | bool {b : Bool} : Written (.bool b) (if b then "true" else "false")
  | number {n : Number} : Written (.number n) n.text
  | string {s : String} : Written (.string s) (quote s)
  | array {js : List Json} (text : Json → String) (items : ∀ j ∈ js, Written j (text j)) :
      Written (.array js) ("[" ++ ",".intercalate (js.map text) ++ "]")
  | object {es : List (String × Json)} (text : String × Json → String)
      (values : ∀ e ∈ es, Written e.2 (text e)) :
      Written (.object es)
        ("\x7b" ++ ",".intercalate (es.map fun e => quote e.1 ++ ":" ++ text e) ++ "\x7d")

variable {j : Json} {s : String}

theorem exists_written (j : Json) : ∃ s, j.Written s := by
  induction j using Json.induction with
  | null => exact ⟨_, .null⟩
  | bool b => exact ⟨_, .bool⟩
  | number n => exact ⟨_, .number⟩
  | string s => exact ⟨_, .string⟩
  | array js ih =>
    choose! text htext using ih
    exact ⟨_, .array text htext⟩
  | object es ih =>
    choose! text htext using ih
    exact ⟨_, .object text htext⟩

theorem Written.text_eq (h : j.Written s) : j.text = s := by
  induction h with
  | @bool b => cases b <;> rfl
  | @array js text _ ih =>
    have hitems : js.map Json.text = js.map text := List.map_congr_left ih
    rw [Json.text, arrayText, texts_eq_map, hitems]
  | @object es text _ ih =>
    have hentries : (es.map fun e => quote e.1 ++ ":" ++ e.2.text) =
        es.map fun e => quote e.1 ++ ":" ++ text e :=
      List.map_congr_left fun e he => by rw [ih e he]
    rw [Json.text, objectText, memberTexts_eq_map, List.map_map, ← hentries]
    rfl
  | _ => rfl

/-- The writer gives the one text of a value. -/
theorem written_iff : j.Written s ↔ j.text = s := by
  constructor
  · exact Written.text_eq
  · rintro rfl
    obtain ⟨s, hs⟩ := exists_written j
    rwa [hs.text_eq]

end Criteria.Json
