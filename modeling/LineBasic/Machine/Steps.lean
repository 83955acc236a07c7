import LineBasic.Machine

/-!
# Sequences of steps

A sequence of steps goes up to the next pause of the run: a wait for input, the end, or an error.
An idle machine gives an empty sequence. Breaking off early leaves the machine where it is.
-/
namespace LineBasic

/-- A run pauses at a wait for input, at its end, and at an error. -/
def Event.pauses : Event → Bool
  | input _ => true
  | finished => true
  | failed _ => true
  | _ => false

structure Steps where
  machine : Machine
  done : Bool

namespace Steps

/-- The steps of a machine up to its next pause. -/
def of (m : Machine) : Steps :=
  ⟨m, false⟩

def next [PowerRoutine] (s : Steps) : Option Event × Steps :=
  if s.done then (none, s)
  else
    match s.machine.step with
    | (.idle, m) => (none, ⟨m, true⟩)
    | (event, m) => (some event, ⟨m, event.pauses⟩)

theorem next_of_ne_idle [PowerRoutine] {s : Steps} (h : s.done = false)
    (hidle : s.machine.step.1 ≠ .idle) :
    s.next = (some s.machine.step.1, ⟨s.machine.step.2, s.machine.step.1.pauses⟩) := by
  rw [next, if_neg (by simp [h])]
  split <;> simp_all

end Steps

end LineBasic
