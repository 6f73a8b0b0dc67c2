import Criteria.Proofs.Json.Documents
import Criteria.Proofs.Json.Grammar
import Criteria.Proofs.Path
import Criteria.Proofs.Reading.Outcomes

/-! The documents that a strict reading accepts, and its error on any other. -/
namespace Criteria

section

variable (limit : Option Nat)

namespace ReadRequest

def EntryAccepted (e : String × Json) : Prop :=
  if e.1 = "orderBy" then e.2.IsOrder else e.2.Acceptable limit 0

def FirstEntryDefect (base : Option Path) (e : String × Json) : Defect → Prop :=
  if e.1 = "orderBy" then Json.FirstOrderDefect (.under base e.1) e.2
  else Json.FirstDefect limit e.2 (.under base e.1) 0

def Accepted : Json → Prop := Json.RootAccepted (EntryAccepted limit)

def FirstDefect (base : Option Path) : Json → Defect → Prop :=
  Json.FirstRootDefect (EntryAccepted limit) base (FirstEntryDefect limit base)

theorem diagnoses (base : Option Path) (j : Json) :
    Diagnoses (defects limit base j) (Accepted limit j) (FirstDefect limit base j) := by
  refine Json.diagnoses_root (fun e => ?_) j
  unfold entryDefects EntryAccepted FirstEntryDefect
  split
  · exact Json.diagnoses_order e.2
  · exact Json.diagnoses e.2 _ 0

theorem diagnoses_met (base : Option Path) (j : Json) :
    Diagnoses (metDefects limit base j) (Accepted limit j) (FirstDefect limit base j) :=
  (diagnoses limit base j).of_head? (head?_metDefects j)

end ReadRequest

namespace InsertRequest

def EntryAccepted (e : String × Json) : Prop := e.2.Acceptable limit 0

def Accepted : Json → Prop := Json.RootAccepted (EntryAccepted limit)

def FirstDefect : Json → Defect → Prop :=
  Json.FirstRootDefect (EntryAccepted limit) none fun e => e.2.FirstDefect limit (.key e.1) 0

theorem diagnoses (j : Json) :
    Diagnoses (defects limit j) (Accepted limit j) (FirstDefect limit j) :=
  Json.diagnoses_root (fun e => Json.diagnoses e.2 _ 0) j

theorem diagnoses_met (j : Json) :
    Diagnoses (metDefects limit j) (Accepted limit j) (FirstDefect limit j) :=
  (diagnoses limit j).of_head? (head?_metDefects j)

end InsertRequest

namespace UpdateRequest

def EntryAccepted (e : String × Json) : Prop :=
  if e.1 = "queryOptions" then ReadRequest.Accepted limit e.2 else e.2.Acceptable limit 0

def FirstEntryDefect (e : String × Json) : Defect → Prop :=
  if e.1 = "queryOptions" then ReadRequest.FirstDefect limit (some (.key e.1)) e.2
  else e.2.FirstDefect limit (.key e.1) 0

def Accepted : Json → Prop := Json.RootAccepted (EntryAccepted limit)

def FirstDefect : Json → Defect → Prop :=
  Json.FirstRootDefect (EntryAccepted limit) none (FirstEntryDefect limit)

theorem diagnoses (j : Json) :
    Diagnoses (defects limit j) (Accepted limit j) (FirstDefect limit j) := by
  refine Json.diagnoses_root (fun e => ?_) j
  unfold EntryAccepted FirstEntryDefect
  split
  · exact ReadRequest.diagnoses limit _ e.2
  · exact Json.diagnoses e.2 _ 0

theorem diagnoses_met (j : Json) :
    Diagnoses (metDefects limit j) (Accepted limit j) (FirstDefect limit j) :=
  (diagnoses limit j).of_head? (head?_metDefects j)

end UpdateRequest

end

namespace Reading

/-- A reading gives a result if the document is `accepted`. Otherwise its error names the `first`
defect, with its place spelled out. -/
structure Recognizes {α : Type} (x : Reading α) (accepted : Prop) (first : Defect → Prop) :
    Prop where
  ok_iff : (∃ a, x.result = .ok a) ↔ accepted
  error_iff : ∀ e, x.result = .error e ↔ ∃ d, e = .malformed d ∧ first d
  spelled : ∀ e, x.result = .error e → ∃ (d : Defect) (place : String), e = .malformed d ∧
    first d ∧ d.path.Spelled place.toList ∧ d.path.text = place ∧
    e.message = "Malformed options at '" ++ place ++ "': " ++ d.reason.text

variable {α : Type} {ds : List Defect} {a b : α} {accepted : Prop} {first : Defect → Prop}

theorem accepted_of_ok (h : Diagnoses ds accepted first)
    (hr : (ofDefects .strict ds a).result = .ok b) : accepted ∧ a = b := by
  obtain ⟨hds, hab⟩ := ofDefects_eq_ok_iff.mp hr
  exact ⟨h.nil_iff.mp (hds rfl), hab⟩

theorem error_ofDefects_iff (h : Diagnoses ds accepted first) {e : Error} :
    (ofDefects .strict ds a).result = .error e ↔ ∃ d, e = .malformed d ∧ first d := by
  simp only [← h.head?_iff]
  cases ds with
  | nil => simp [ofDefects]
  | cons d ds => simpa [ofDefects] using eq_comm

theorem recognizes_ofDefects (h : Diagnoses ds accepted first) :
    Recognizes (ofDefects .strict ds a) accepted first := by
  constructor
  · rw [← h.nil_iff]
    cases ds <;> simp [ofDefects]
  · intro e
    exact error_ofDefects_iff h
  · intro e he
    obtain ⟨d, rfl, hfirst⟩ := (error_ofDefects_iff h).mp he
    exact ⟨d, d.path.text, rfl, hfirst, d.path.spelled_text, rfl, rfl⟩

/-- A strict reading of any request accepts its grammar and nothing else. -/
theorem requests_recognize (limit : Option Nat) (j : Json) :
    Recognizes (ReadRequest.ofJson ⟨.strict, limit⟩ j) (ReadRequest.Accepted limit j)
        (ReadRequest.FirstDefect limit none j) ∧
      Recognizes (InsertRequest.ofJson ⟨.strict, limit⟩ j) (InsertRequest.Accepted limit j)
        (InsertRequest.FirstDefect limit j) ∧
      Recognizes (UpdateRequest.ofJson ⟨.strict, limit⟩ j) (UpdateRequest.Accepted limit j)
        (UpdateRequest.FirstDefect limit j) := by
  refine ⟨?_, ?_, ?_⟩
  · rw [ReadRequest.ofJson, ReadRequest.read_eq]
    exact recognizes_ofDefects (ReadRequest.diagnoses_met limit none j)
  · rw [InsertRequest.ofJson_eq]
    exact recognizes_ofDefects (InsertRequest.diagnoses_met limit j)
  · rw [UpdateRequest.ofJson_eq]
    exact recognizes_ofDefects (UpdateRequest.diagnoses_met limit j)

/-- Malformed documents, each with the place and the reason that an update is refused for if values
may nest once. -/
def sampleRefusals : List (Json × String × String) :=
  [(.bool true, "<root>", "options must be an object"),
    (.object [("queryOptions", .object [("a", .array [.object [("operator", .string "<"),
      ("value", .array [])]])])], "queryOptions.a[0].value", "value nesting exceeds max_depth"),
    (.object [("a", .array [.null, .object [("value", .null), ("operator", .bool true)]])],
      "a[1].operator", "operator must be a string"),
    (.object [("queryOptions", .object [("orderBy", .bool true)])], "queryOptions.orderBy",
      "expected a column name, an order spec or a list of order specs"),
    (.object [("queryOptions", .object [("orderBy", .array [.null])])], "queryOptions.orderBy[0]",
      "expected an object with a 'column' key"),
    (.object [("queryOptions", .object [("orderBy", .object [("direction", .bool true),
      ("column", .null)])])], "queryOptions.orderBy.column", "column must be a string"),
    (.object [("queryOptions", .object [("orderBy", .array [.object [("direction", .bool true),
      ("column", .string "a")]])])], "queryOptions.orderBy[0].direction",
      "direction must be a string")]

theorem requests_recognize_sampleRefusals : ∀ s ∈ sampleRefusals, ∃ d,
    (UpdateRequest.ofJson ⟨.strict, some 1⟩ s.1).result = .error (.malformed d) ∧
      UpdateRequest.FirstDefect (some 1) s.1 d ∧ d.path.Spelled s.2.1.toList ∧
      (Error.malformed d).message = "Malformed options at '" ++ s.2.1 ++ "': " ++ s.2.2 := by
  have hrefused : ∀ s ∈ sampleRefusals, ∃ d,
      (UpdateRequest.ofJson ⟨.strict, some 1⟩ s.1).result = .error (.malformed d) ∧
        d.path.text = s.2.1 ∧ d.reason.text = s.2.2 := by
    simp only [sampleRefusals, List.forall_mem_cons]
    exact ⟨⟨_, rfl, rfl, rfl⟩, ⟨_, rfl, rfl, rfl⟩, ⟨_, rfl, rfl, rfl⟩, ⟨_, rfl, rfl, rfl⟩,
      ⟨_, rfl, rfl, rfl⟩, ⟨_, rfl, rfl, rfl⟩, ⟨_, rfl, rfl, rfl⟩, by simp⟩
  intro s hs
  obtain ⟨d, hd, hplace, hreason⟩ := hrefused s hs
  obtain ⟨_, place, ⟨⟩, hfirst, hspelled, rfl, hmessage⟩ :=
    (requests_recognize (some 1) s.1).2.2.spelled _ hd
  rw [hplace] at hspelled hmessage
  rw [hreason] at hmessage
  exact ⟨d, hd, hfirst, hspelled, hmessage⟩

end Reading

end Criteria
