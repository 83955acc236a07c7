import LineBasic.Proofs.Histories

/-!
# The machine in separate registers

The phase of a machine holds the awaited name and the next line inside the state they belong to.
Here the same machine keeps the three in registers of their own, and each operation sets just the
registers that it changes: the end of a run leaves the awaited name and the queue alone, a typed
value leaves the next line alone. Nothing in the type keeps such registers consistent. That they are
is a consequence of the refinement: operation by operation, the registers are those of the machine.
-/
namespace LineBasic

/-- The state of a run without the data that belong to it. -/
inductive RunState
  | idle
  | running
  | awaitingInput
  | finished
  deriving DecidableEq

structure Registers where
  listing : Program
  snapshot : Program
  state : RunState
  pc : Option LineNumber
  pending : Option String
  vars : Variables
  queue : List Event

namespace Registers

variable [PowerRoutine]

def new : Registers :=
  ⟨.empty, .empty, .idle, none, none, .empty, []⟩

def start (r : Registers) : Registers :=
  { r with
    snapshot := r.listing
    vars := .empty
    pending := none
    queue := []
    pc := r.listing.first?
    state := if r.listing.first?.isSome then .running else .finished }

def interrupt (r : Registers) : Registers :=
  { r with state := .idle, pc := none, pending := none, queue := [] }

def supply (r : Registers) (value : Int64) : Registers :=
  match r.pending with
  | some name => { r with pending := none, vars := r.vars.insert name value }
  | none => r

def input (r : Registers) (s : String) : Bool × Registers :=
  match r.state, Machine.typedValue? s with
  | .awaitingInput, some value => (true, { r.supply value with state := .running })
  | _, _ => (false, r)

def finish (r : Registers) : Registers :=
  { r with state := .finished, pc := none }

/-- Takes over what a statement of line `number` came to, and gives the event that closes it. -/
def conclude (r : Registers) (number : LineNumber) :
    Except Failure (Flow × Variables) → Event × Registers
  | .ok (.next, vars) => (.running, { r with vars := vars })
  | .ok (.print text, vars) => (.print text, { r with vars := vars })
  | .ok (.input name, vars) =>
    (.input name, { r with vars := vars, pending := some name, state := .awaitingInput })
  | .ok (.jump target, vars) => (.jumped target, { r with vars := vars, pc := some target })
  | .ok (.halt, vars) => (.finished, { r with vars := vars }.finish)
  | .error failure =>
    (.failed (failure.toError.inLine number), { r with vars := failure.vars }.finish)

/-- Puts warnings and the event that closes them behind the queue, and takes the first event off it.
Without warnings the queue is not used. -/
def enqueue (r : Registers) (warnings : List Warning) (closing : Event) : Event × Registers :=
  if warnings = [] then (closing, r)
  else
    match r.queue ++ warnings.map .warning ++ [closing] with
    | first :: rest => (first, { r with queue := rest })
    | [] => (.running, r)

def execute (r : Registers) : Event × Registers :=
  match r.pc with
  | none => (.finished, r.finish)
  | some number =>
    match r.snapshot.statement? number with
    | none => (.finished, r.finish)
    | some statement =>
      let out := (statement.run r.vars).outcome []
      let done := { r with pc := r.snapshot.after? number }.conclude number out.1
      done.2.enqueue out.2 done.1

def step (r : Registers) : Event × Registers :=
  match r.queue with
  | event :: rest => (event, { r with queue := rest })
  | [] =>
    match r.state with
    | .idle => (.idle, r)
    | .finished => (.finished, r)
    | .awaitingInput => (.input (r.pending.getD ""), r)
    | .running => r.execute

/-- Takes up to `n` events, and none after a pause. -/
def steps (r : Registers) : Nat → List Event × Registers
  | 0 => ([], r)
  | n + 1 =>
    match r.step with
    | (.idle, after) => ([], after)
    | (event, after) =>
      if event.pauses then ([event], after)
      else (event :: (after.steps n).1, (after.steps n).2)

def perform (r : Registers) : Operation → Answer × Registers
  | .enter s => (.edit (r.listing.enter s).1, { r with listing := (r.listing.enter s).2 })
  | .load lines => (.nothing, { r with listing := .ofLines lines })
  | .clear => (.nothing, { r with listing := .empty })
  | .setListing p => (.nothing, { r with listing := p })
  | .start => (.nothing, r.start)
  | .interrupt => (.nothing, r.interrupt)
  | .input s => (.taken (r.input s).1, (r.input s).2)
  | .step => (.event r.step.1, r.step.2)
  | .steps n => (.events (r.steps n).1, (r.steps n).2)

def performAll (r : Registers) : List Operation → List Answer × Registers
  | [] => ([], r)
  | op :: ops =>
    let first := r.perform op
    let others := first.2.performAll ops
    (first.1 :: others.1, others.2)

end Registers

namespace Phase

def state : Phase → RunState
  | idle => .idle
  | running _ => .running
  | awaiting _ _ => .awaitingInput
  | finished => .finished

variable {phase : Phase}

theorem state_eq_running_iff : phase.state = .running ↔ ∃ pc, phase = .running pc := by
  cases phase <;> simp [state]

theorem state_eq_awaitingInput_iff :
    phase.state = .awaitingInput ↔ ∃ name pc, phase = .awaiting name pc := by
  cases phase <;> simp [state]

theorem state_eq_finished_iff : phase.state = .finished ↔ phase = .finished := by
  cases phase <;> simp [state]

theorem pending?_isSome_iff : phase.pending?.isSome ↔ phase.state = .awaitingInput := by
  cases phase <;> simp [pending?, state]

theorem pc?_eq_none_of_state (h : phase.state = .idle ∨ phase.state = .finished) :
    phase.pc? = none := by
  cases phase <;> simp [state] at h <;> rfl

end Phase

namespace Machine

def registers (m : Machine) : Registers :=
  ⟨m.listing, m.snapshot, m.phase.state, m.phase.pc?, m.phase.pending?, m.vars, m.queue⟩

theorem start_refinement (m : Machine) : m.registers.start = m.start.registers := by
  cases h : m.listing.first? <;> simp [Registers.start, registers, start, Phase.state, Phase.pc?,
    Phase.pending?, h]

theorem input_refinement (m : Machine) (s : String) :
    m.registers.input s = ((m.input s).1, (m.input s).2.registers) := by
  unfold input Registers.input
  cases hphase : m.phase with
  | idle | running _ | finished => simp [registers, Phase.state, hphase]
  | awaiting name pc =>
    cases typedValue? s with
    | none => simp [registers, Phase.state, hphase]
    | some value =>
      simp [registers, Registers.supply, Phase.state, Phase.pc?, Phase.pending?, hphase]

theorem settle_refinement {m : Machine} (hqueue : m.queue = []) (t : Turn) :
    ({ m with phase := t.phase, vars := t.vars } : Machine).registers.enqueue t.warnings t.closing =
      ((m.settle t).1, (m.settle t).2.registers) := by
  unfold settle Registers.enqueue
  cases t.warnings with
  | nil => simp [registers, hqueue]
  | cons w ws => simp [registers, hqueue]

variable [PowerRoutine]

/-- The next line is set first, and corrected by a jump or by the end of the run. -/
theorem conclude_refinement {m : Machine} {pc : Option LineNumber} (hphase : m.phase = .running pc)
    (number : LineNumber) (statement : Statement) :
    let out := (statement.run m.vars).outcome []
    let t := Turn.execute m.snapshot m.vars number statement
    t.warnings = out.2 ∧
      { m.registers with pc := m.snapshot.after? number }.conclude number out.1 =
        (t.closing, ({ m with phase := t.phase, vars := t.vars } : Machine).registers) := by
  unfold Turn.execute
  dsimp only
  split <;> rename_i hout <;> rw [hout] <;>
    simp [Registers.conclude, Registers.finish, registers, Phase.state, Phase.pc?, Phase.pending?,
      hphase]

theorem execute_refinement {m : Machine} {pc : Option LineNumber} (hphase : m.phase = .running pc)
    (hqueue : m.queue = []) :
    m.registers.execute = ((m.settle (.take m.snapshot m.vars pc)).1,
      (m.settle (.take m.snapshot m.vars pc)).2.registers) := by
  have hpc : m.registers.pc = pc := by simp [registers, Phase.pc?, hphase]
  have hfinish : ((.finished, m.registers.finish) : Event × Registers) =
      ((m.settle (.finish m.vars)).1, (m.settle (.finish m.vars)).2.registers) := by
    simp [Registers.finish, settle, Turn.finish, registers, Phase.state, Phase.pc?, Phase.pending?,
      hphase, hqueue]
  unfold Registers.execute
  rw [hpc]
  cases pc with
  | none => exact hfinish
  | some number =>
    cases hst : m.snapshot.statement? number with
    | none =>
      have hst' : m.registers.snapshot.statement? number = none := hst
      simp only [hst', Turn.take_of_missing hst]
      exact hfinish
    | some statement =>
      have hst' : m.registers.snapshot.statement? number = some statement := hst
      obtain ⟨hwarnings, hconclude⟩ := conclude_refinement hphase number statement
      simp only [hst', Turn.take_of_statement hst]
      rw [← settle_refinement hqueue, hwarnings]
      exact congrArg (fun done : Event × Registers => done.2.enqueue _ done.1) hconclude

theorem step_refinement (m : Machine) :
    m.registers.step = (m.step.1, m.step.2.registers) := by
  unfold step Registers.step
  cases hqueue : m.queue with
  | cons event rest => simp [registers, hqueue]
  | nil =>
    cases hphase : m.phase with
    | idle | finished | awaiting _ _ =>
      simp [registers, Phase.state, Phase.pending?, hqueue, hphase]
    | running pc =>
      have hstate : m.registers.state = .running := by simp [registers, Phase.state, hphase]
      have hq : m.registers.queue = [] := hqueue
      rw [hq, hstate]
      exact execute_refinement hphase hqueue

theorem steps_refinement (n : Nat) (m : Machine) :
    m.registers.steps n =
      (((Steps.of m).collect n).1, ((Steps.of m).collect n).2.machine.registers) := by
  induction n generalizing m with
  | zero => rfl
  | succ n ih =>
    rw [Steps.collect_succ]
    unfold Registers.steps
    rw [step_refinement]
    cases hstep : m.step with
    | mk event after =>
      cases event with
      | idle => rfl
      | _ => simp only [Event.pauses, ih]; rfl

theorem perform_refinement (m : Machine) (op : Operation) :
    m.registers.perform op = ((m.perform op).1, (m.perform op).2.registers) := by
  cases op with
  | enter s | load lines | clear | setListing p | interrupt => rfl
  | start => rw [Registers.perform, start_refinement]; rfl
  | input s => rw [Registers.perform, input_refinement]; rfl
  | step => rw [Registers.perform, step_refinement]; rfl
  | steps n => rw [Registers.perform, steps_refinement]; rfl

/-- The registers of a machine stay those of the machine, and both give the same answers. -/
theorem performAll_refinement (m : Machine) (ops : List Operation) :
    m.registers.performAll ops = ((m.performAll ops).1, (m.performAll ops).2.registers) := by
  induction ops generalizing m with
  | nil => rfl
  | cons op ops ih =>
    unfold Registers.performAll performAll
    dsimp only
    rw [perform_refinement, ih]

end Machine

end LineBasic
