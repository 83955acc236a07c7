import LineBasic.Proofs.EventGroups
import LineBasic.Proofs.Registers

/-!
# The invariant of a machine

What always holds between the program that a machine runs, where the run stands, its variables and
its queue. The phase keeps the awaited name and the next line together with the state they belong
to; that the queue, the variables and the lines fit the phase is what every operation has to
preserve. The invariant also says that an awaited name belongs to a statement of the program, so
that the value it will be given does not bind a foreign name.
-/
namespace LineBasic

namespace Program

def HasLine (p : Program) (number : LineNumber) : Prop :=
  ∃ statement, p.statement? number = some statement

/-- Some statement of the program may jump to the number. -/
def Targets (p : Program) (number : LineNumber) : Prop :=
  ∃ line statement, p.statement? line = some statement ∧ statement.target? = some number

def Assigns (p : Program) (name : String) : Prop :=
  ∃ line statement, p.statement? line = some statement ∧ statement.assigned? = some name

variable {p : Program}

theorem hasLine_of_mem {entry : Entry} (h : entry ∈ p.entries) : p.HasLine entry.number := by
  have hfound : (p.get? entry.number).isSome :=
    List.find?_isSome.mpr ⟨entry, h, beq_self_eq_true _⟩
  obtain ⟨found, hfound⟩ := Option.isSome_iff_exists.mp hfound
  exact ⟨found.statement, by rw [statement?, hfound]; rfl⟩

theorem hasLine_of_first? {number : LineNumber} (h : p.first? = some number) :
    p.HasLine number := by
  obtain ⟨entry, hentry, rfl⟩ := Option.map_eq_some_iff.mp h
  exact hasLine_of_mem (List.mem_of_mem_head? hentry)

theorem hasLine_of_after? {number next : LineNumber} (h : p.after? number = some next) :
    p.HasLine next := by
  obtain ⟨entry, hentry, rfl⟩ := Option.map_eq_some_iff.mp h
  exact hasLine_of_mem (List.mem_of_find?_eq_some hentry)

end Program

/-- The phase is one that a run of the program can be in. -/
def Phase.Fits (p : Program) : Phase → Prop
  | .idle => True
  | .finished => True
  | .running pc => ∀ number, pc = some number → p.HasLine number ∨ p.Targets number
  | .awaiting name pc => p.Assigns name ∧ ∀ number, pc = some number → p.HasLine number

namespace Phase.Fits

variable {p : Program} {phase : Phase} {number : LineNumber}

theorem hasLine_of_awaitingInput (h : phase.Fits p) (hstate : phase.state = .awaitingInput)
    (hpc : phase.pc? = some number) : p.HasLine number := by
  obtain ⟨name, pc, rfl⟩ := state_eq_awaitingInput_iff.mp hstate
  exact h.2 number hpc

theorem hasLine_or_targets_of_running (h : phase.Fits p) (hstate : phase.state = .running)
    (hpc : phase.pc? = some number) : p.HasLine number ∨ p.Targets number := by
  obtain ⟨pc, rfl⟩ := state_eq_running_iff.mp hstate
  exact h number hpc

end Phase.Fits

/-- All bound names are bound by statements of the program. -/
def Variables.Fits (p : Program) (vars : Variables) : Prop :=
  ∀ name value, vars.get? name = some value → p.Assigns name

theorem Variables.Fits.insert {p : Program} {vars : Variables} (h : vars.Fits p) {name : String}
    (hname : p.Assigns name) (value : Int64) : (vars.insert name value).Fits p := by
  intro other found hfound
  rw [Variables.get?_insert] at hfound
  split at hfound
  · rename_i heq
    exact heq ▸ hname
  · exact h other found hfound

/-- The event may wait behind warnings while the run is in the phase. -/
def Event.ClosesIn : Event → Phase → Prop
  | .failed _, .finished => True
  | .running, .running _ => True
  | .print _, .running _ => True
  | .jumped _, .running _ => True
  | _, _ => False

theorem Event.ClosesIn.state {last : Event} {phase : Phase} (h : last.ClosesIn phase) :
    (phase.state = .finished ∧ ∃ e, last = .failed e) ∨
      phase.state = .running ∧
        (last = .running ∨ (∃ text, last = .print text) ∨ ∃ target, last = .jumped target) := by
  cases last <;> cases phase <;> simp [Event.ClosesIn, Phase.state] at h ⊢

/-! ## One statement -/

section Statement

variable [PowerRoutine] {p : Program} {number : LineNumber} {statement : Statement}
  {vars : Variables}
variable {result : Except Failure (Flow × Variables)} {ws : List Warning}

theorem resume_fits (hst : p.statement? number = some statement)
    (h : statement.Does vars result ws) : (Reference.resume p number result).Fits p := by
  cases h with
  | remark _ | assign _ | print _ | branchPassed _ _ =>
    exact fun next hnext => .inl (Program.hasLine_of_after? hnext)
  | input name => exact ⟨⟨number, _, hst, rfl⟩, fun next hnext => Program.hasLine_of_after? hnext⟩
  | goto target | branchTaken _ _ => exact fun next hnext => .inr ⟨number, _, hst, hnext⟩
  | assignFails _ | printFails _ | branchFails _ | stop => trivial

theorem varsAfter_fits (hst : p.statement? number = some statement)
    (h : statement.Does vars result ws) (hv : vars.Fits p) :
    (Reference.varsAfter result).Fits p := by
  cases h with
  | assign _ => exact hv.insert ⟨number, _, hst, rfl⟩ _
  | _ => exact hv

/-- Only statements that evaluate an expression give warnings, and they close in few ways. -/
theorem closing_closesIn (h : statement.Does vars result ws) (hws : ws ≠ []) :
    (Reference.closing number result).ClosesIn (Reference.resume p number result) := by
  cases h with
  | remark _ | input _ | goto _ | stop => exact absurd rfl hws
  | _ => trivial

end Statement

/-! ## One group of events -/

structure Reference.Fits (r : Reference) : Prop where
  phase : r.phase.Fits r.program
  vars : r.vars.Fits r.program

namespace Reference

theorem Fits.yields [PowerRoutine] {r r' : Reference} {es : List Event} (h : r.Fits)
    (hy : r.Yields es r') : r'.Fits := by
  cases hy with
  | idle _ | finished _ | awaits _ => exact h
  | ends _ _ => exact ⟨trivial, h.vars⟩
  | executes _ hst hdoes => exact ⟨resume_fits hst hdoes, varsAfter_fits hst hdoes h.vars⟩

theorem Fits.input {r r' : Reference} {s : String} (h : r.Fits) (hin : r.input s = some r') :
    r'.Fits := by
  unfold Reference.input at hin
  split at hin
  · rename_i name pc value hphase _
    have hp := h.phase
    rw [hphase] at hp
    cases hin
    exact ⟨fun number hpc => .inl (hp.2 number hpc), h.vars.insert hp.1 value⟩
  · cases hin

theorem Yields.closesIn [PowerRoutine] {r r' : Reference} {first : Event} {rest : List Event}
    (h : r.Yields (first :: rest) r') (hrest : rest ≠ []) :
    ∃ (ws : List Warning) (last : Event), rest = ws.map .warning ++ [last] ∧
      last.ClosesIn r'.phase := by
  generalize hes : first :: rest = es at h
  cases h with
  | idle _ | finished _ | awaits _ | ends _ _ => exact absurd (List.cons.inj hes).2 hrest
  | @executes _ _ _ ws _ _ hdoes =>
    cases ws with
    | nil => exact absurd (List.cons.inj hes).2 hrest
    | cons w ws => exact ⟨ws, _, (List.cons.inj hes).2, closing_closesIn hdoes (by simp)⟩

end Reference

/-! ## The invariant -/

namespace Machine

/-- The queue is empty, or warnings followed by one event that may wait behind them. -/
def QueueFits (m : Machine) : Prop :=
  m.queue ≠ [] → ∃ (ws : List Warning) (last : Event), m.queue = ws.map .warning ++ [last] ∧
    last.ClosesIn m.phase

structure Invariant (m : Machine) : Prop where
  run : m.reference.Fits
  queue : m.QueueFits

namespace Invariant

variable {m : Machine}

theorem new : Machine.new.Invariant where
  run := ⟨trivial, fun _ _ h => by cases h⟩
  queue h := absurd rfl h

theorem start (m : Machine) : m.start.Invariant where
  run := by
    refine ⟨?_, fun _ _ h => by cases h⟩
    rw [reference_start]
    unfold Reference.start
    cases hfirst : m.listing.first? with
    | none => trivial
    | some number =>
      intro next hnext
      cases hnext
      exact .inl (Program.hasLine_of_first? hfirst)
  queue h := absurd rfl h

theorem interrupt (h : m.Invariant) : m.interrupt.Invariant where
  run := ⟨trivial, h.run.vars⟩
  queue hq := absurd rfl hq

theorem queue_eq_nil (h : m.Invariant)
    (hstate : m.phase.state = .idle ∨ m.phase.state = .awaitingInput) : m.queue = [] := by
  by_cases hq : m.queue = []
  · exact hq
  · obtain ⟨ws, last, _, hlast⟩ := h.queue hq
    rcases hlast.state with ⟨hs, _⟩ | ⟨hs, _⟩ <;> simp [hs] at hstate

theorem input (h : m.Invariant) (s : String) : (m.input s).2.Invariant := by
  cases htaken : (m.input s).1 with
  | false => rwa [input_of_refused htaken]
  | true =>
    have hin : m.reference.input s = some (m.input s).2.reference := by
      rw [reference_input, if_pos htaken]
    refine ⟨h.run.input hin, fun hq => ?_⟩
    rw [queue_input] at hq
    have hstate := Phase.state_eq_awaitingInput_iff.mpr (awaiting_of_taken htaken)
    exact absurd (h.queue_eq_nil (.inr hstate)) hq

theorem step [PowerRoutine] (h : m.Invariant) : m.step.2.Invariant := by
  cases hq : m.queue with
  | nil =>
    obtain ⟨hgroup, href⟩ := step_of_queue_nil hq
    have hyields := m.reference.yields_group
    rw [hgroup, ← href] at hyields
    exact ⟨h.run.yields hyields, hyields.closesIn⟩
  | cons e rest =>
    rw [step_of_queue_cons hq]
    refine ⟨h.run, fun hrest => ?_⟩
    obtain ⟨ws, last, hws, hlast⟩ := h.queue (by simp [hq])
    rw [hq] at hws
    cases ws with
    | nil =>
      cases hws
      exact absurd rfl hrest
    | cons w ws => exact ⟨ws, last, (List.cons.inj hws).2, hlast⟩

theorem perform [PowerRoutine] (m : Machine) (op : Operation) (h : m.Invariant) :
    (m.perform op).2.Invariant :=
  perform_preserves (fun _ _ h => ⟨h.run, h.queue⟩) (fun m _ => start m) (fun _ => interrupt)
    (fun _ s h => h.input s) (fun _ => step) m op h

end Invariant

theorem invariant_performAll [PowerRoutine] (ops : List Operation) :
    (new.performAll ops).2.Invariant :=
  performAll_preserves Invariant.perform .new ops

/-- What holds of the registers of a new machine after any sequence of operations. -/
theorem registers_consistent [PowerRoutine] (ops : List Operation) :
    let r := (Registers.new.performAll ops).2
    Registers.new.performAll ops =
      ((new.performAll ops).1, (new.performAll ops).2.registers) ∧
    (r.pending.isSome ↔ r.state = .awaitingInput) ∧
    (r.state = .idle ∨ r.state = .finished → r.pc = none) ∧
    (r.state = .idle ∨ r.state = .awaitingInput → r.queue = []) ∧
    (r.queue ≠ [] → ∃ (ws : List Warning) (last : Event), r.queue = ws.map .warning ++ [last] ∧
      ((r.state = .finished ∧ ∃ e, last = .failed e) ∨
        r.state = .running ∧
          (last = .running ∨ (∃ text, last = .print text) ∨ ∃ target, last = .jumped target))) ∧
    (r.state = .awaitingInput → ∀ number, r.pc = some number → r.snapshot.HasLine number) ∧
    (r.state = .running → ∀ number, r.pc = some number →
      r.snapshot.HasLine number ∨ r.snapshot.Targets number) ∧
    (∀ name value, r.vars.get? name = some value → r.snapshot.Assigns name) := by
  have hr : Registers.new.performAll ops =
      ((new.performAll ops).1, (new.performAll ops).2.registers) := performAll_refinement new ops
  have h := invariant_performAll ops
  rw [hr]
  generalize (new.performAll ops).2 = m at h
  have hfits : m.phase.Fits m.snapshot := h.run.phase
  refine ⟨rfl, Phase.pending?_isSome_iff, Phase.pc?_eq_none_of_state, h.queue_eq_nil, fun hq => ?_,
    fun hstate _ => hfits.hasLine_of_awaitingInput hstate,
    fun hstate _ => hfits.hasLine_or_targets_of_running hstate, h.run.vars⟩
  obtain ⟨ws, last, hws, hlast⟩ := h.queue hq
  exact ⟨ws, last, hws, hlast.state⟩

end Machine

end LineBasic
