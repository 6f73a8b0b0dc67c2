import Criteria.Level
import Criteria.Target
import Criteria.Value.Shape

/-! Computations that call a target and stop at the first call that it refuses. -/
namespace Criteria

/-- What a compilation has to say of a field. -/
inductive Notice where
  /-- The column is not allowed, so the field is skipped. -/
  | notAllowed (column : String)
  /-- An empty list is no condition. -/
  | emptyList (column : String)
  /-- A list is about to be compiled. -/
  | list (column : String) (length : Nat) (shape : Shape)
deriving DecidableEq, Repr

namespace Notice

def level : Notice → Level
  | notAllowed _ | emptyList _ => .debug
  | list .. => .trace

def column : Notice → String
  | notAllowed c | emptyList c | list c _ _ => c

def message? : Notice → Option String
  | notAllowed _ => some "skipping field not in allow-list"
  | emptyList _ => some "skipping empty list"
  | list .. => none

end Notice

/-- A step of a compilation: a call, be it taken or refused, or a notice. -/
inductive Step where
  | call (c : Call)
  | notice (n : Notice)

namespace Step

def call? : Step → Option Call
  | call c => some c
  | notice _ => none

def notice? : Step → Option Notice
  | call _ => none
  | notice n => some n

end Step

/-- The state of the target afterwards, the steps in order, and a result or the target's error. -/
structure Run (σ ε α : Type) where
  state : σ
  journal : List Step
  result : Except ε α

namespace Run

variable {σ ε α : Type} (r : Run σ ε α)

def calls : List Call := r.journal.filterMap Step.call?

def notices : List Notice := r.journal.filterMap Step.notice?

end Run

/-- A computation that calls a target. -/
def Compilation (σ ε α : Type) := Target σ ε → σ → Run σ ε α

namespace Compilation

variable {σ ε α β : Type}

protected def pure (a : α) : Compilation σ ε α := fun _ s => ⟨s, [], .ok a⟩

/-- No step follows a refused call. -/
protected def bind (x : Compilation σ ε α) (f : α → Compilation σ ε β) : Compilation σ ε β :=
  fun target s =>
    let r := x target s
    match r.result with
    | .ok a =>
      let next := f a target r.state
      ⟨next.state, r.journal ++ next.journal, next.result⟩
    | .error e => ⟨r.state, r.journal, .error e⟩

instance : Monad (Compilation σ ε) where
  pure := Compilation.pure
  bind := Compilation.bind

instance : LawfulMonad (Compilation σ ε) := LawfulMonad.mk' (Compilation σ ε)
  (fun x => by
    funext target s
    simp only [Functor.map, Compilation.bind, Function.comp, Compilation.pure]
    rcases x target s with ⟨_, _, r⟩
    cases r <;> simp)
  (fun a f => by
    funext target s
    simp [bind, pure, Compilation.bind, Compilation.pure])
  (fun x f g => by
    funext target s
    simp only [bind, Compilation.bind]
    rcases x target s with ⟨s, _, r⟩
    cases r with
    | error e => rfl
    | ok a =>
      simp only
      cases (f a target s).result <;> simp)

def call (c : Call) : Compilation σ ε Unit := fun target s =>
  let (s, result) := target.receive s c
  ⟨s, [.call c], result⟩

def notice (n : Notice) : Compilation σ ε Unit := fun _ s => ⟨s, [.notice n], .ok ()⟩

end Compilation

end Criteria
