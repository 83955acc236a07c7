import LineBasic.Machine
import LineBasic.Proofs.StatementEffects

/-!
# Events in groups

The machine hands back one event at a time and keeps the others of a statement in its queue, while
its phase and its variables have already moved on. Here it is compared with a machine that has no
queue: it executes a whole statement in one go and yields all its events together, the warnings
first and then the one event that closes them. Whatever is seen of the machine from outside is what
the groups in a row show, cut off within the last group at most.
-/
namespace LineBasic

/-- The event may close a group. -/
def Event.Closes : Event → Prop
  | .idle => False
  | .warning _ => False
  | _ => True

/-- A machine without a queue. -/
structure Reference where
  program : Program
  phase : Phase
  vars : Variables

namespace Reference

def start (program : Program) : Reference where
  program := program
  phase := match program.first? with
    | some number => .running (some number)
    | none => .finished
  vars := .empty

def closing (number : LineNumber) : Except Failure (Flow × Variables) → Event
  | .ok (.next, _) => .running
  | .ok (.print text, _) => .print text
  | .ok (.jump target, _) => .jumped target
  | .ok (.input name, _) => .input name
  | .ok (.halt, _) => .finished
  | .error failure => .failed (failure.toError.inLine number)

def resume (program : Program) (number : LineNumber) : Except Failure (Flow × Variables) → Phase
  | .ok (.next, _) => .running (program.after? number)
  | .ok (.print _, _) => .running (program.after? number)
  | .ok (.jump target, _) => .running (some target)
  | .ok (.input name, _) => .awaiting name (program.after? number)
  | .ok (.halt, _) => .finished
  | .error _ => .finished

def varsAfter : Except Failure (Flow × Variables) → Variables
  | .ok (_, vars) => vars
  | .error failure => failure.vars

/-- Executes the statement of line `number`: one warning event for each of its warnings, in the
order in which they were given, and the closing event. -/
def execute [PowerRoutine] (r : Reference) (number : LineNumber) (statement : Statement) :
    List Event × Reference :=
  let out := (statement.run r.vars).outcome []
  (out.2.map .warning ++ [closing number out.1],
    { r with phase := resume r.program number out.1, vars := varsAfter out.1 })

def finish (r : Reference) : List Event × Reference :=
  ([.finished], { r with phase := .finished })

/-- Yields the next group of events. While a value is awaited, and after the end, the same event
comes again and again. -/
def group [PowerRoutine] (r : Reference) : List Event × Reference :=
  match r.phase with
  | .idle => ([.idle], r)
  | .finished => ([.finished], r)
  | .awaiting name _ => ([.input name], r)
  | .running none => r.finish
  | .running (some number) =>
    match r.program.statement? number with
    | some statement => r.execute number statement
    | none => r.finish

/-- Takes a typed number if one is awaited. -/
def input (r : Reference) (s : String) : Option Reference :=
  match r.phase, Machine.typedValue? s with
  | .awaiting name pc, some value =>
    some { r with phase := .running pc, vars := r.vars.insert name value }
  | _, _ => none

theorem closes_closing (number : LineNumber) (result : Except Failure (Flow × Variables)) :
    (closing number result).Closes := by
  unfold closing
  split <;> trivial

theorem input_phase_ne_idle {r r' : Reference} {s : String} (h : r.input s = some r') :
    r'.phase ≠ .idle := by
  unfold input at h
  split at h
  · cases h
    simp
  · cases h

theorem start_phase_ne_idle (program : Program) : (start program).phase ≠ .idle := by
  unfold start
  dsimp only
  split <;> simp

variable [PowerRoutine]

/-- All that yielding a group can come to, one rule for each way through it. -/
inductive Yields (r : Reference) : List Event → Reference → Prop
  | idle : r.phase = .idle → Yields r [.idle] r
  | finished : r.phase = .finished → Yields r [.finished] r
  | awaits {name pc} : r.phase = .awaiting name pc → Yields r [.input name] r
  | ends {pc} : r.phase = .running pc →
      (∀ number, pc = some number → r.program.statement? number = none) →
      Yields r [.finished] { r with phase := .finished }
  | executes {number statement result ws} : r.phase = .running (some number) →
      r.program.statement? number = some statement → statement.Does r.vars result ws →
      Yields r (ws.map .warning ++ [closing number result])
        { r with phase := resume r.program number result, vars := varsAfter result }

theorem yields_group (r : Reference) : r.Yields r.group.1 r.group.2 := by
  unfold group
  split
  · exact .idle ‹_›
  · exact .finished ‹_›
  · exact .awaits ‹_›
  · exact .ends ‹_› (by simp)
  · split
    · exact .executes ‹_› ‹_› (Statement.does_run _ _)
    · rename_i hphase _ hst
      refine .ends hphase fun number hnumber => ?_
      cases hnumber
      exact hst

namespace Yields

variable {r r' : Reference} {es : List Event}

/-- Every group but that of a machine at rest consists of warnings and one closing event. -/
theorem shape (h : r.Yields es r') (hphase : r.phase ≠ .idle) :
    ∃ (ws : List Warning) (last : Event), es = ws.map .warning ++ [last] ∧ last.Closes := by
  cases h with
  | idle hidle => exact absurd hidle hphase
  | finished _ | ends _ _ => exact ⟨[], .finished, rfl, trivial⟩
  | awaits _ => exact ⟨[], .input _, rfl, trivial⟩
  | executes _ _ _ => exact ⟨_, _, rfl, closes_closing _ _⟩

/-- A statement that asks for a value gives no warning. -/
theorem of_awaiting (h : r.Yields es r') {name : String} {pc : Option LineNumber}
    (hawait : r'.phase = .awaiting name pc) : es = [.input name] := by
  cases h with
  | idle hphase | finished hphase => cases hphase.symm.trans hawait
  | awaits hphase =>
    cases hphase.symm.trans hawait
    rfl
  | ends _ _ => cases hawait
  | executes _ _ hdoes =>
    cases hdoes <;> cases hawait
    rfl

theorem phase_ne_idle (h : r.Yields es r') (hphase : r.phase ≠ .idle) : r'.phase ≠ .idle := by
  cases h with
  | idle _ | finished _ | awaits _ => exact hphase
  | ends _ _ => simp
  | executes _ _ hdoes => cases hdoes <;> simp [resume]

end Yields

/-- What the machine without a queue does next: it yields a group, or takes a typed text. -/
inductive Act
  | group (events : List Event)
  | taken (s : String)

/-- The acts of a run, in the order of execution. -/
inductive Runs (r₀ : Reference) : List Act → Reference → Prop
  | nil : Runs r₀ [] r₀
  | group {acts r} : Runs r₀ acts r → Runs r₀ (acts ++ [.group r.group.1]) r.group.2
  | taken {acts r r' s} : Runs r₀ acts r → r.input s = some r' →
      Runs r₀ (acts ++ [.taken s]) r'

theorem Runs.phase_ne_idle {r₀ r : Reference} {acts : List Act} (h : Runs r₀ acts r)
    (h₀ : r₀.phase ≠ .idle) : r.phase ≠ .idle := by
  induction h with
  | nil => exact h₀
  | group _ ih => exact (yields_group _).phase_ne_idle ih
  | taken _ hin _ => exact input_phase_ne_idle hin

theorem Runs.group_shape {r₀ r : Reference} {acts : List Act} (h : Runs r₀ acts r)
    (h₀ : r₀.phase ≠ .idle) : ∀ es, .group es ∈ acts →
      ∃ (ws : List Warning) (last : Event), es = ws.map .warning ++ [last] ∧ last.Closes := by
  induction h with
  | nil => simp
  | group hr ih =>
    intro es hes
    rcases List.mem_append.mp hes with hes | hes
    · exact ih es hes
    · cases List.mem_singleton.mp hes
      exact (yields_group _).shape (hr.phase_ne_idle h₀)
  | taken _ _ ih =>
    intro es hes
    rcases List.mem_append.mp hes with hes | hes
    · exact ih es hes
    · cases List.mem_singleton.mp hes

end Reference

/-- What is seen of a run from outside: an event that a step hands back, or a typed text that is
taken. -/
inductive Sign
  | event (e : Event)
  | taken (s : String)

def Sign.event? : Sign → Option Event
  | event e => some e
  | taken _ => none

namespace Reference.Act

def events : Act → List Event
  | group events => events
  | taken _ => []

def signs : Act → List Sign
  | group events => events.map .event
  | taken s => [.taken s]

theorem filterMap_signs (act : Act) : act.signs.filterMap Sign.event? = act.events := by
  cases act with
  | group events => simp [signs, Act.events, List.filterMap_map, Function.comp_def, Sign.event?]
  | taken s => rfl

end Reference.Act

inductive Call
  | step
  | input (s : String)

namespace Machine

/-- Carries out a call, and gives what is seen of it. A typed text that is not taken shows
nothing. -/
def answer [PowerRoutine] (m : Machine) : Call → List Sign × Machine
  | .step => ([.event m.step.1], m.step.2)
  | .input s => (if (m.input s).1 then [.taken s] else [], (m.input s).2)

def answers [PowerRoutine] (m : Machine) : List Call → List Sign × Machine
  | [] => ([], m)
  | call :: calls =>
    let first := m.answer call
    let others := first.2.answers calls
    (first.1 ++ others.1, others.2)

theorem answers_append [PowerRoutine] (m : Machine) (calls calls' : List Call) :
    m.answers (calls ++ calls') =
      ((m.answers calls).1 ++ ((m.answers calls).2.answers calls').1,
        ((m.answers calls).2.answers calls').2) := by
  induction calls generalizing m with
  | nil => rfl
  | cons call calls ih => simp only [List.cons_append, answers, ih, List.append_assoc]

def reference (m : Machine) : Reference :=
  ⟨m.snapshot, m.phase, m.vars⟩

variable {m : Machine}

theorem reference_start (m : Machine) : m.start.reference = .start m.listing := rfl

theorem settle_eq (m : Machine) (t : Turn) :
    t.warnings.map .warning ++ [t.closing] = (m.settle t).1 :: (m.settle t).2.queue ∧
      (m.settle t).2.reference = ⟨m.snapshot, t.phase, t.vars⟩ := by
  unfold settle
  split <;> rename_i hw <;> rw [hw] <;> exact ⟨rfl, rfl⟩

theorem queue_input (m : Machine) (s : String) : (m.input s).2.queue = m.queue := by
  unfold input
  split <;> rfl

theorem awaiting_of_taken {s : String} (h : (m.input s).1 = true) :
    ∃ name pc, m.phase = .awaiting name pc := by
  unfold input at h
  split at h
  · rename_i name pc value hphase _
    exact ⟨name, pc, hphase⟩
  · cases h

theorem input_of_refused {s : String} (h : (m.input s).1 = false) : (m.input s).2 = m := by
  unfold input at h ⊢
  split at h
  · cases h
  · rfl

/-- A machine takes a typed text just when the one without a queue does. -/
theorem reference_input (m : Machine) (s : String) :
    m.reference.input s = if (m.input s).1 then some (m.input s).2.reference else none := by
  unfold Reference.input input
  dsimp only [reference]
  split <;> simp_all

/-- The queue is what is left of the last group, of which at least one event has been handed
back. -/
def Draining (acts : List Reference.Act) (queue : List Event) : Prop :=
  queue = [] ∨ ∃ earlier shown, acts = earlier ++ [.group (shown ++ queue)] ∧ shown ≠ []

section

variable [PowerRoutine]

theorem reference_execute (m : Machine) (number : LineNumber) (statement : Statement) :
    let t := Turn.execute m.snapshot m.vars number statement
    m.reference.execute number statement =
      (t.warnings.map .warning ++ [t.closing], ⟨m.snapshot, t.phase, t.vars⟩) := by
  unfold Turn.execute Reference.execute
  dsimp only [reference]
  split <;> rename_i hout <;> rw [hout] <;> rfl

theorem reference_group_of_running {pc : Option LineNumber} (h : m.phase = .running pc) :
    let t := Turn.take m.snapshot m.vars pc
    m.reference.group =
      (t.warnings.map .warning ++ [t.closing], ⟨m.snapshot, t.phase, t.vars⟩) := by
  have hphase : m.reference.phase = .running pc := h
  unfold Reference.group
  rw [hphase]
  cases pc with
  | none => rfl
  | some number =>
    cases hst : m.snapshot.statement? number with
    | none =>
      have hst' : m.reference.program.statement? number = none := hst
      simp only [hst', Turn.take_of_missing hst]
      rfl
    | some statement =>
      have hst' : m.reference.program.statement? number = some statement := hst
      simp only [hst', Turn.take_of_statement hst]
      exact m.reference_execute number statement

/-- With an empty queue, a step hands back the first event of the next group and queues the
others. -/
theorem step_of_queue_nil (h : m.queue = []) :
    m.reference.group.1 = m.step.1 :: m.step.2.queue ∧
      m.step.2.reference = m.reference.group.2 := by
  unfold step
  rw [h]
  cases hphase : m.phase with
  | idle | finished | awaiting name pc =>
    simp [Reference.group, reference, hphase, h]
  | running pc =>
    dsimp only
    rw [reference_group_of_running hphase]
    exact m.settle_eq _

theorem step_of_queue_cons {e : Event} {rest : List Event} (h : m.queue = e :: rest) :
    m.step = (e, { m with queue := rest }) := by
  unfold step
  rw [h]

theorem step_of_running {pc : Option LineNumber} (hqueue : m.queue = [])
    (hphase : m.phase = .running pc) : m.step = m.settle (.take m.snapshot m.vars pc) := by
  unfold step
  rw [hqueue, hphase]

/-- The machine, of which `seen` has been seen, follows the acts of a run without a queue. -/
structure Follows (r₀ : Reference) (acts : List Reference.Act) (seen : List Sign) (m : Machine) :
    Prop where
  runs : r₀.Runs acts m.reference
  stream : acts.flatMap Reference.Act.signs = seen ++ m.queue.map .event
  draining : Draining acts m.queue
  parked : ∀ name pc, m.phase = .awaiting name pc → m.queue = []

namespace Follows

variable {r₀ : Reference} {acts : List Reference.Act} {seen : List Sign}

theorem step_cons (h : Follows r₀ acts seen m) {e : Event} {rest : List Event}
    (hq : m.queue = e :: rest) : Follows r₀ acts (seen ++ [.event e]) { m with queue := rest } where
  runs := h.runs
  stream := by
    rw [h.stream, hq]
    simp
  draining := by
    rcases h.draining with hnil | ⟨earlier, shown, hacts, _⟩
    · cases hq.symm.trans hnil
    · refine .inr ⟨earlier, shown ++ [e], ?_, by simp⟩
      rw [hacts, hq]
      simp
  parked name pc hphase := by
    cases hq.symm.trans (h.parked name pc hphase)

theorem step_nil (h : Follows r₀ acts seen m) (hq : m.queue = []) :
    Follows r₀ (acts ++ [.group m.reference.group.1]) (seen ++ [.event m.step.1]) m.step.2 := by
  obtain ⟨hgroup, href⟩ := step_of_queue_nil hq
  refine ⟨href ▸ h.runs.group, ?_, ?_, fun name pc hphase => ?_⟩
  · rw [List.flatMap_append, h.stream, hq, hgroup]
    simp [Reference.Act.signs]
  · rw [hgroup]
    exact .inr ⟨acts, [m.step.1], rfl, by simp⟩
  · have hawait : m.reference.group.2.phase = .awaiting name pc := by
      rw [← href]
      exact hphase
    rw [m.reference.yields_group.of_awaiting hawait] at hgroup
    exact (List.cons.inj hgroup).2.symm

/-- A text is taken by a machine that waits, and one that waits has nothing queued. -/
theorem queue_nil_of_taken (h : Follows r₀ acts seen m) {s : String}
    (htaken : (m.input s).1 = true) : m.queue = [] := by
  obtain ⟨name, pc, hphase⟩ := awaiting_of_taken htaken
  exact h.parked name pc hphase

theorem input_taken (h : Follows r₀ acts seen m) {s : String} (htaken : (m.input s).1 = true) :
    Follows r₀ (acts ++ [.taken s]) (seen ++ [.taken s]) (m.input s).2 := by
  have hin : m.reference.input s = some (m.input s).2.reference := by
    rw [reference_input, if_pos htaken]
  have hq := h.queue_nil_of_taken htaken
  have hq' : (m.input s).2.queue = [] := by rw [queue_input, hq]
  refine ⟨h.runs.taken hin, ?_, .inl hq', fun _ _ _ => hq'⟩
  rw [List.flatMap_append, h.stream, hq, hq']
  simp [Reference.Act.signs]

theorem answer (h : Follows r₀ acts seen m) (call : Call) :
    ∃ acts', Follows r₀ acts' (seen ++ (m.answer call).1) (m.answer call).2 := by
  cases call with
  | step =>
    cases hq : m.queue with
    | nil => exact ⟨_, h.step_nil hq⟩
    | cons e rest =>
      unfold Machine.answer
      rw [step_of_queue_cons hq]
      exact ⟨acts, h.step_cons hq⟩
  | input s =>
    cases htaken : (m.input s).1 with
    | true =>
      refine ⟨acts ++ [.taken s], ?_⟩
      simp only [Machine.answer, htaken]
      exact h.input_taken htaken
    | false =>
      refine ⟨acts, ?_⟩
      simp only [Machine.answer, htaken, input_of_refused htaken]
      simpa using h

theorem answers (h : Follows r₀ acts seen m) (calls : List Call) :
    ∃ acts', Follows r₀ acts' (seen ++ (m.answers calls).1) (m.answers calls).2 := by
  induction calls generalizing acts seen m with
  | nil => exact ⟨acts, by simpa [Machine.answers] using h⟩
  | cons call calls ih =>
    obtain ⟨acts', h'⟩ := h.answer call
    obtain ⟨acts'', h''⟩ := ih h'
    exact ⟨acts'', by simpa [Machine.answers] using h''⟩

end Follows

theorem follows_start (m : Machine) : Follows (.start m.listing) [] [] m.start where
  runs := m.reference_start ▸ .nil
  stream := rfl
  draining := .inl rfl
  parked _ _ _ := rfl

/-- Of a run that is stepped and given texts in any order, just the groups of the machine without a
queue are seen, in the order of execution. Its state is the one after the last group, of which the
queue holds the rest. A text is taken just when the machine without a queue takes it, with the same
effect. A text is taken, and the next statement executed, only when the rest is empty. -/
theorem answers_eq_groups (m : Machine) (calls : List Call) :
    ∃ acts r, (Reference.start m.listing).Runs acts r ∧
      (m.start.answers calls).2.reference = r ∧
      (m.start.answers calls).1.filterMap Sign.event? <+: acts.flatMap Reference.Act.events ∧
      acts.flatMap Reference.Act.signs =
        (m.start.answers calls).1 ++ (m.start.answers calls).2.queue.map .event ∧
      Draining acts (m.start.answers calls).2.queue ∧
      ((m.start.answers calls).2.queue ≠ [] →
        (m.start.answers calls).2.step.2.reference = r ∧
        ∀ s, ((m.start.answers calls).2.input s).1 = false) ∧
      (∀ s, r.input s =
        if ((m.start.answers calls).2.input s).1 then
          some ((m.start.answers calls).2.input s).2.reference
        else none) ∧
      ∀ es, .group es ∈ acts →
        ∃ (ws : List Warning) (last : Event), es = ws.map .warning ++ [last] ∧ last.Closes := by
  obtain ⟨acts, h⟩ := m.follows_start.answers calls
  rw [List.nil_append] at h
  generalize m.start.answers calls = final at h ⊢
  refine ⟨acts, final.2.reference, h.runs, rfl, ?_, h.stream, h.draining,
    fun hq => ⟨?_, fun s => ?_⟩, reference_input _,
    h.runs.group_shape (Reference.start_phase_ne_idle _)⟩
  · have hevents : acts.flatMap Reference.Act.events =
        (acts.flatMap Reference.Act.signs).filterMap Sign.event? := by
      rw [List.filterMap_flatMap]
      simp only [Reference.Act.filterMap_signs]
    rw [hevents, h.stream, List.filterMap_append]
    exact List.prefix_append _ _
  · obtain ⟨e, rest, hrest⟩ := List.exists_cons_of_ne_nil hq
    rw [step_of_queue_cons hrest]
    rfl
  · cases htaken : (final.2.input s).1 with
    | false => rfl
    | true => exact absurd (h.queue_nil_of_taken htaken) hq

end

end Machine

end LineBasic
