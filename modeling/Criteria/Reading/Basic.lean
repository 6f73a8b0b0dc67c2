import Criteria.Defect
import Criteria.Level

/-! Computations that read a document and meet malformed parts on the way. -/
namespace Criteria

/-- A malformed part that was dropped. -/
structure Reading.Event where
  level : Level
  defect : Defect
deriving DecidableEq, Repr

def Reading.Event.message : String := "dropping malformed options input"

/-- The events so far, and a result or the error that ended the reading. -/
structure Reading (α : Type) where
  events : List Reading.Event
  result : Except Error α

namespace Reading

variable {α β γ : Type}

protected def pure (a : α) : Reading α := ⟨[], .ok a⟩

/-- Nothing is read after an error. -/
protected def bind (x : Reading α) (f : α → Reading β) : Reading β :=
  match x.result with
  | .ok a => ⟨x.events ++ (f a).events, (f a).result⟩
  | .error e => ⟨x.events, .error e⟩

instance : Monad Reading where
  pure := Reading.pure
  bind := Reading.bind

@[ext] theorem ext {x y : Reading α} (he : x.events = y.events) (hr : x.result = y.result) :
    x = y := by
  cases x; cases y; simp_all

instance : LawfulMonad Reading := LawfulMonad.mk' Reading
  (fun x => by
    obtain ⟨_, r⟩ := x
    cases r <;> simp [Functor.map, Reading.bind, Reading.pure])
  (fun a f => by simp [bind, pure, Reading.bind, Reading.pure])
  (fun x f g => by
    obtain ⟨_, r⟩ := x
    cases r with
    | error e => rfl
    | ok a =>
      simp only [bind, Reading.bind]
      cases (f a).result <;> simp)

theorem bind_ok {x : Reading α} {a : α} (h : x.result = .ok a) (f : α → Reading β) :
    x >>= f = ⟨x.events ++ (f a).events, (f a).result⟩ := by
  simp [bind, Reading.bind, h]

theorem bind_error {x : Reading α} {e : Error} (h : x.result = .error e) (f : α → Reading β) :
    x >>= f = ⟨x.events, .error e⟩ := by
  simp [bind, Reading.bind, h]

theorem bind_eq_ok {x : Reading α} {f : α → Reading β} {b : β} :
    (x >>= f).result = .ok b ↔ ∃ a, x.result = .ok a ∧ (f a).result = .ok b := by
  cases h : x.result with
  | ok a => simp [bind_ok h]
  | error e => simp [bind_error h]

theorem pure_eq_ok {a b : α} : (pure a : Reading α).result = .ok b ↔ a = b :=
  ⟨Except.ok.inj, congrArg _⟩

end Reading

inductive Mode where
  /-- Malformed parts are dropped with a quiet event. -/
  | lenient
  /-- Malformed parts are dropped with a warning. -/
  | warning
  /-- The first malformed part is an error. -/
  | strict
deriving DecidableEq, Repr

/-- What becomes of malformed parts, and how deep the values of fields may nest. -/
structure Policy where
  mode : Mode := .lenient
  maxDepth : Option Nat := some 32
deriving DecidableEq, Repr

namespace Policy

def unlimited : Policy := ⟨.lenient, none⟩

/-- Drops a malformed part, or stops there. -/
def reject (policy : Policy) (path : Path) (reason : Reason) : Reading Unit :=
  match policy.mode with
  | .lenient => ⟨[⟨.debug, path, reason⟩], .ok ()⟩
  | .warning => ⟨[⟨.warn, path, reason⟩], .ok ()⟩
  | .strict => ⟨[], .error (.malformed ⟨path, reason⟩)⟩

def allows (policy : Policy) (depth : Nat) : Bool :=
  match policy.maxDepth with
  | some limit => depth ≤ limit
  | none => true

end Policy

end Criteria
