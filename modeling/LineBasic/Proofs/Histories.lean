import LineBasic.Machine.Steps

/-!
# Histories of a machine

Everything that can be asked of a machine, with what it answers, and sequences of such operations. A
sequence of steps may be broken off at any point, so it is asked for with a bound on its events.
-/
namespace LineBasic

variable [PowerRoutine]

/-- Takes up to `n` events of a sequence of steps. -/
def Steps.collect : Nat → Steps → List Event × Steps
  | 0, s => ([], s)
  | n + 1, s =>
    match s.next with
    | (none, after) => ([], after)
    | (some event, after) => (event :: (collect n after).1, (collect n after).2)

namespace Steps

theorem collect_of_done {s : Steps} (h : s.done = true) (n : Nat) : s.collect n = ([], s) := by
  cases n with
  | zero => rfl
  | succ n => simp [collect, next, h]

/-- The next event goes in front of those after it, and is the last one if the run pauses there. -/
theorem collect_succ (m : Machine) (n : Nat) :
    (of m).collect (n + 1) =
      match m.step with
      | (.idle, after) => ([], ⟨after, true⟩)
      | (event, after) =>
        if event.pauses then ([event], ⟨after, true⟩)
        else (event :: ((of after).collect n).1, ((of after).collect n).2) := by
  rw [collect, next, if_neg (by simp [of])]
  cases hstep : m.step with
  | mk event after =>
    cases event with
    | idle => simp only [of, hstep]
    | input _ | finished | failed _ =>
      simp only [of, hstep, Event.pauses, collect_of_done, if_true]
    | running | jumped _ | print _ | warning _ =>
      simp only [of, hstep, Event.pauses, Bool.false_eq_true, if_false]

end Steps

inductive Operation
  | enter (s : String)
  | load (lines : List String)
  | clear
  | setListing (p : Program)
  | start
  | interrupt
  | input (s : String)
  | step
  | steps (n : Nat)

inductive Answer
  | nothing
  | edit (e : Edit)
  | taken (b : Bool)
  | event (e : Event)
  | events (es : List Event)

namespace Machine

def perform (m : Machine) : Operation → Answer × Machine
  | .enter s => (.edit (m.enter s).1, (m.enter s).2)
  | .load lines => (.nothing, m.load lines)
  | .clear => (.nothing, m.clear)
  | .setListing p => (.nothing, m.setListing p)
  | .start => (.nothing, m.start)
  | .interrupt => (.nothing, m.interrupt)
  | .input s => (.taken (m.input s).1, (m.input s).2)
  | .step => (.event m.step.1, m.step.2)
  | .steps n => (.events ((Steps.of m).collect n).1, ((Steps.of m).collect n).2.machine)

def performAll (m : Machine) : List Operation → List Answer × Machine
  | [] => ([], m)
  | op :: ops =>
    let first := m.perform op
    let others := first.2.performAll ops
    (first.1 :: others.1, others.2)

variable {P : Machine → Prop}

theorem collect_preserves (hstep : ∀ m, P m → P m.step.2) (n : Nat) (s : Steps)
    (h : P s.machine) : P (s.collect n).2.machine := by
  have hnext (s : Steps) (h : P s.machine) : P s.next.2.machine := by
    unfold Steps.next
    split
    · exact h
    · have hm := hstep s.machine h
      split <;> rename_i hs <;> rw [hs] at hm <;> exact hm
  induction n generalizing s with
  | zero => exact h
  | succ n ih =>
    have hafter := hnext s h
    unfold Steps.collect
    split <;> rename_i hs <;> rw [hs] at hafter
    · exact hafter
    · exact ih _ hafter

/-- All edits replace the listing and leave the rest alone, so there are five kinds of operation to
look at. -/
theorem perform_preserves (hlisting : ∀ m p, P m → P { m with listing := p })
    (hstart : ∀ m, P m → P m.start) (hinterrupt : ∀ m, P m → P m.interrupt)
    (hinput : ∀ m s, P m → P (m.input s).2) (hstep : ∀ m, P m → P m.step.2)
    (m : Machine) (op : Operation) (h : P m) : P (m.perform op).2 := by
  cases op with
  | enter s => exact hlisting m _ h
  | load lines => exact hlisting m _ h
  | clear => exact hlisting m _ h
  | setListing p => exact hlisting m p h
  | start => exact hstart m h
  | interrupt => exact hinterrupt m h
  | input s => exact hinput m s h
  | step => exact hstep m h
  | steps n => exact collect_preserves hstep n _ h

theorem performAll_preserves (hperform : ∀ m op, P m → P (m.perform op).2) {m : Machine} (h : P m)
    (ops : List Operation) : P (m.performAll ops).2 := by
  induction ops generalizing m with
  | nil => exact h
  | cons op ops ih => exact ih (hperform m op h)

end Machine

end LineBasic
