import Criteria.Proofs.Reading.Outcomes

/-! The three modes of one reading, side by side. -/
namespace Criteria

section

variable {limit : Option Nat} {base : Option Path}

theorem ReadRequest.uniform_read (j : Json) :
    Reading.Uniform fun mode => ReadRequest.read ⟨mode, limit⟩ base j :=
  ⟨_, _, fun _ => ReadRequest.read_eq j⟩

theorem InsertRequest.uniform_ofJson (j : Json) :
    Reading.Uniform fun mode => InsertRequest.ofJson ⟨mode, limit⟩ j :=
  ⟨_, _, fun _ => InsertRequest.ofJson_eq j⟩

theorem UpdateRequest.uniform_ofJson (j : Json) :
    Reading.Uniform fun mode => UpdateRequest.ofJson ⟨mode, limit⟩ j :=
  ⟨_, _, fun _ => UpdateRequest.ofJson_eq j⟩

end

namespace Reading

variable {α : Type}

/-- What the three modes of one reading have to do with each other. -/
structure ModesAgree (x : Mode → Reading α) : Prop where
  ok_lenient : ∃ a, (x .lenient).result = .ok a
  result_warning : (x .warning).result = (x .lenient).result
  level_lenient : ∀ e ∈ (x .lenient).events, e.level = .debug
  level_warning : ∀ e ∈ (x .warning).events, e.level = .warn
  /-- The dropping modes meet the same defects in the same order. -/
  defects_warning : (x .warning).events.map Event.defect = (x .lenient).events.map Event.defect
  events_strict : (x .strict).events = []
  ok_strict_iff : (∃ a, (x .strict).result = .ok a) ↔ (x .lenient).events = []
  ok_strict : ∀ a, (x .strict).result = .ok a → (x .lenient).result = .ok a
  /-- The strict mode stops at the first of them. -/
  error_strict : ∀ e es, (x .lenient).events = e :: es →
    (x .strict).result = .error (.malformed e.defect)

theorem Uniform.modesAgree {x : Mode → Reading α} (h : Uniform x) : ModesAgree x := by
  obtain ⟨ds, a, h⟩ := h
  have hl : x .lenient = ⟨ds.map (⟨.debug, ·⟩), .ok a⟩ := h .lenient
  have hw : x .warning = ⟨ds.map (⟨.warn, ·⟩), .ok a⟩ := h .warning
  have hs : x .strict = ofDefects .strict ds a := h .strict
  constructor
  · exact ⟨a, by rw [hl]⟩
  · rw [hl, hw]
  · simp [hl]
  · simp [hw]
  · simp [hl, hw]
  · cases ds <;> rw [hs] <;> rfl
  · cases ds <;> simp [hl, hs, ofDefects]
  · cases ds <;> simp [hl, hs, ofDefects]
  · intro e es he
    cases ds with
    | nil => simp [hl] at he
    | cons d ds =>
      rw [hl] at he
      obtain ⟨rfl, -⟩ := List.cons.inj he
      rw [hs]
      rfl

/-- Every request is read alike in the three modes, whatever the document and the limit. -/
theorem requests_modesAgree (limit : Option Nat) (j : Json) :
    ModesAgree (fun mode => ReadRequest.ofJson ⟨mode, limit⟩ j) ∧
      ModesAgree (fun mode => InsertRequest.ofJson ⟨mode, limit⟩ j) ∧
      ModesAgree (fun mode => UpdateRequest.ofJson ⟨mode, limit⟩ j) := by
  refine ⟨?_, ?_, ?_⟩
  · exact (ReadRequest.uniform_read j).modesAgree
  · exact (InsertRequest.uniform_ofJson j).modesAgree
  · exact (UpdateRequest.uniform_ofJson j).modesAgree

end Reading

end Criteria
