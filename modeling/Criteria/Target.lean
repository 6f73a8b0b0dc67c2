import Criteria.Call

/-! What receives the calls: a machine that takes or refuses each one. -/
namespace Criteria

structure Target (σ ε : Type) where
  receive : σ → Call → σ × Except ε Unit

namespace Target

/-- Records every call and refuses none. -/
def log : Target (List Call) Empty := ⟨fun calls c => (calls ++ [c], .ok ())⟩

/-- How many calls were received, and those of them that were taken. -/
structure Count where
  received : Nat := 0
  taken : List Call := []

/-- Refuses the call with the given number, counted from zero, and records all others. -/
def refusing (number : Option Nat) : Target Count Call :=
  ⟨fun s c =>
    if number = some s.received then ({ s with received := s.received + 1 }, .error c)
    else (⟨s.received + 1, s.taken ++ [c]⟩, .ok ())⟩

end Target

end Criteria
