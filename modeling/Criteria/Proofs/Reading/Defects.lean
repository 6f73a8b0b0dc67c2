import Criteria.Reading.Basic

/-! Readings by the defects that they meet, whatever the mode. -/
namespace Criteria

namespace Reading

variable {α β : Type} {mode : Mode} {ds es : List Defect} {a : α} {b : β}

/-- What becomes of a reading that meets the defects `ds` and gives `a` without them. -/
def ofDefects (mode : Mode) (ds : List Defect) (a : α) : Reading α :=
  match mode, ds with
  | .lenient, ds => ⟨ds.map (⟨.debug, ·⟩), .ok a⟩
  | .warning, ds => ⟨ds.map (⟨.warn, ·⟩), .ok a⟩
  | .strict, [] => ⟨[], .ok a⟩
  | .strict, d :: _ => ⟨[], .error (.malformed d)⟩

theorem ofDefects_nil : ofDefects mode [] a = pure a := by
  cases mode <;> rfl

/-- After a defect the strict mode never looks at what follows. -/
theorem ofDefects_bind {f : α → Reading β} (hf : f a = ofDefects mode es b) :
    ofDefects mode ds a >>= f = ofDefects mode (ds ++ es) b := by
  cases mode with
  | lenient =>
    rw [bind_ok rfl, hf]
    simp [ofDefects]
  | warning =>
    rw [bind_ok rfl, hf]
    simp [ofDefects]
  | strict =>
    cases ds with
    | nil =>
      rw [bind_ok rfl, hf]
      simp [ofDefects]
    | cons d ds => exact bind_error rfl f

theorem ofDefects_bind_pure {f : α → Reading β} (hf : f a = pure b) :
    ofDefects mode ds a >>= f = ofDefects mode ds b := by
  have h : f a = ofDefects mode [] b := hf.trans ofDefects_nil.symm
  rw [ofDefects_bind h, List.append_nil]

theorem ofDefects_foldlM {γ : Type} {f : α → γ → Reading α} {g : α → γ → α}
    {met : γ → List Defect} (h : ∀ a c, f a c = ofDefects mode (met c) (g a c))
    (cs : List γ) (a : α) :
    cs.foldlM f a = ofDefects mode (cs.flatMap met) (cs.foldl g a) := by
  induction cs generalizing a with
  | nil => exact ofDefects_nil.symm
  | cons c cs ih =>
    rw [List.foldlM_cons, h]
    exact ofDefects_bind (ih _)

theorem ofDefects_eq_ok_iff {a b : α} :
    (ofDefects mode ds a).result = .ok b ↔ (mode = .strict → ds = []) ∧ a = b := by
  cases mode with
  | lenient => simp [ofDefects]
  | warning => simp [ofDefects]
  | strict => cases ds <;> simp [ofDefects]

theorem reject_eq (limit : Option Nat) (path : Path) (reason : Reason) :
    (⟨mode, limit⟩ : Policy).reject path reason = ofDefects mode [⟨path, reason⟩] () := by
  cases mode <;> rfl

/-- In all modes a reading meets the same defects. -/
def Uniform (x : Mode → Reading α) : Prop :=
  ∃ ds a, ∀ mode, x mode = ofDefects mode ds a

end Reading

end Criteria
