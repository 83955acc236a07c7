import Mathlib
import LineBasic.Proofs.ExactValue
import LineBasic.Proofs.EventGroups
import LineBasic.Proofs.Registers

/-!
# Runs that fail

A statement that fails ends its run at once: before its first event is handed over, the machine has
finished, while its warnings and its error still wait in the queue. From then on only a start or an
interrupt makes a difference. Whatever else is asked of the machine, it hands over the events that
are left, says after them again and again that it has finished, takes no value, and keeps the
variables as the statement found them.
-/
namespace LineBasic

def Answer.pulled : Answer → List Event
  | .event e => [e]
  | .events es => es
  | _ => []

/-- The operation neither begins a run nor gives one up. -/
def Operation.KeepsRun : Operation → Prop
  | .start => False
  | .interrupt => False
  | _ => True

/-- The events that are handed over where `left` are left to tell: these in order, and after them
only that the run has finished. -/
def Told (left : List Event) : List Event → Prop
  | [] => True
  | e :: es => e = left.headD .finished ∧ Told left.tail es

namespace Told

variable {left es es' : List Event}

theorem append (h : Told left es) (h' : Told (left.drop es.length) es') :
    Told left (es ++ es') := by
  induction es generalizing left with
  | nil => simpa using h'
  | cons e es ih =>
    apply And.intro h.1
    apply ih h.2
    simpa [List.drop_tail] using h'

theorem isPrefix (h : Told left es) : es <+: left ++ List.replicate es.length .finished := by
  induction es generalizing left with
  | nil => exact List.nil_prefix
  | cons e es ih =>
    obtain ⟨he, hes⟩ := h
    have hrest := ih hes
    cases left with
    | cons first rest =>
      rw [he, List.cons_append, List.headD_cons, List.prefix_cons_inj]
      have hmore : rest ++ List.replicate es.length .finished <+:
          rest ++ List.replicate (es.length + 1) Event.finished := by
        rw [List.replicate_succ', ← List.append_assoc]
        exact List.prefix_append _ _
      exact hrest.trans hmore
    | nil =>
      rw [he, List.length_cons, List.replicate_succ]
      exact (List.prefix_cons_inj _).mpr hrest

end Told

namespace Machine

section

variable [PowerRoutine]

variable {m after last : Machine} {left es es' : List Event}

/-! ## Machines whose run is over -/

/-- The run is over but for the events that are left to tell: its statement is about to fail, or it
has finished and they wait in the queue. -/
inductive Concluding (m : Machine) : List Event → Prop
  | failing {number statement failure ws} : m.queue = [] → m.phase = .running (some number) →
      m.snapshot.statement? number = some statement →
      (statement.run m.vars).outcome [] = (.error failure, ws) →
      Concluding m (ws.map .warning ++ [.failed (failure.toError.inLine number)])
  | finished : m.phase = .finished → .idle ∉ m.queue → Concluding m m.queue

namespace Concluding

theorem idle_not_mem (h : m.Concluding left) : .idle ∉ left := by
  cases h with
  | failing _ _ _ _ => simp
  | finished _ hidle => exact hidle

theorem input (h : m.Concluding left) (s : String) : m.input s = (false, m) := by
  have hrefused : (m.input s).1 = false := by
    cases htaken : (m.input s).1 with
    | false => rfl
    | true =>
      obtain ⟨name, pc, hphase⟩ := awaiting_of_taken htaken
      cases h with
      | failing _ hrunning _ _ => cases hrunning.symm.trans hphase
      | finished hfinished _ => cases hfinished.symm.trans hphase
  exact Prod.ext hrefused (input_of_refused hrefused)

theorem setListing (h : m.Concluding left) (p : Program) : (m.setListing p).Concluding left := by
  cases h with
  | failing hqueue hphase hstatement hfails => exact .failing hqueue hphase hstatement hfails
  | finished hphase hidle => exact .finished hphase hidle

theorem step_of_failing {number : LineNumber} {statement : Statement} {failure : Failure}
    {ws : List Warning} (hqueue : m.queue = []) (hphase : m.phase = .running (some number))
    (hstatement : m.snapshot.statement? number = some statement)
    (hfails : (statement.run m.vars).outcome [] = (.error failure, ws)) :
    ws.map .warning ++ [.failed (failure.toError.inLine number)] = m.step.1 :: m.step.2.queue ∧
      m.step.2.phase = .finished ∧ m.step.2.vars = m.vars := by
  have hturn : Turn.take m.snapshot m.vars (some number) =
      ⟨ws, .failed (failure.toError.inLine number), .finished, m.vars⟩ := by
    rw [Turn.take_of_statement hstatement, Turn.execute, hfails]
    simp only [(Statement.failure_of_run hfails).1]
  obtain ⟨hevents, href⟩ := m.settle_eq (.take m.snapshot m.vars (some number))
  rw [← step_of_running hqueue hphase, hturn] at hevents href
  exact ⟨hevents, congrArg Reference.phase href, congrArg Reference.vars href⟩

theorem step_of_rest (hphase : m.phase = .finished) (hqueue : m.queue = []) :
    m.step = (.finished, m) := by
  simp [Machine.step, hqueue, hphase]

theorem of_rest (hphase : m.phase = .finished) (hqueue : m.queue = []) : m.Concluding [] := by
  have h := Concluding.finished hphase (by simp [hqueue])
  rwa [hqueue] at h

theorem queue_eq (h : m.Concluding left) (hphase : m.phase = .finished) : m.queue = left := by
  cases h with
  | failing _ hrunning _ _ => cases hrunning.symm.trans hphase
  | finished _ _ => rfl

theorem step (h : m.Concluding left) : m.step.1 = left.headD .finished ∧
    m.step.2.Concluding left.tail ∧ m.step.2.phase = .finished ∧ m.step.2.vars = m.vars := by
  have hidle := h.idle_not_mem
  cases h with
  | failing hqueue hphase hstatement hfails =>
    obtain ⟨hevents, hphase', hvars⟩ := step_of_failing hqueue hphase hstatement hfails
    rw [hevents] at hidle ⊢
    refine ⟨rfl, .finished hphase' fun hmem => ?_, hphase', hvars⟩
    exact hidle (List.mem_cons_of_mem _ hmem)
  | finished hphase _ =>
    cases hqueue : m.queue with
    | nil =>
      rw [step_of_rest hphase hqueue]
      exact ⟨rfl, of_rest hphase hqueue, hphase, rfl⟩
    | cons e rest =>
      rw [hqueue] at hidle
      rw [step_of_queue_cons hqueue]
      refine ⟨rfl, .finished (m := { m with queue := rest }) hphase fun hmem => ?_, hphase, rfl⟩
      exact hidle (List.mem_cons_of_mem _ hmem)

end Concluding

/-! ## What is asked of them -/

/-- Where `left` are left to tell, these events are handed over on the way from one machine to the
other, and nothing else changes but the listing. -/
structure Concludes (m : Machine) (left es : List Event) (after : Machine) : Prop where
  told : Told left es
  concluding : after.Concluding (left.drop es.length)
  phase : after.phase = if es = [] then m.phase else .finished
  vars : after.vars = m.vars

namespace Concludes

theorem refl (h : m.Concluding left) : m.Concludes left [] m :=
  ⟨trivial, h, rfl, rfl⟩

theorem trans (h : m.Concludes left es after)
    (h' : after.Concludes (left.drop es.length) es' last) : m.Concludes left (es ++ es') last where
  told := h.told.append h'.told
  concluding := by
    have hlast := h'.concluding
    rwa [List.drop_drop, ← List.length_append] at hlast
  phase := by
    rw [h'.phase, h.phase]
    cases es <;> cases es' <;> rfl
  vars := h'.vars.trans h.vars

theorem setListing (h : m.Concluding left) (p : Program) :
    m.Concludes left [] (m.setListing p) :=
  ⟨trivial, h.setListing p, rfl, rfl⟩

theorem step (h : m.Concluding left) : m.Concludes left [m.step.1] m.step.2 := by
  obtain ⟨hevent, hleft, hphase, hvars⟩ := h.step
  exact ⟨⟨hevent, trivial⟩, by simpa using hleft, hphase, hvars⟩

theorem collect (h : m.Concluding left) (n : Nat) :
    m.Concludes left ((Steps.of m).collect n).1 ((Steps.of m).collect n).2.machine := by
  induction n generalizing m left with
  | zero => exact refl h
  | succ n ih =>
    have hfirst := step h
    have hnot : m.step.1 ≠ .idle := by
      rw [h.step.1]
      cases left with
      | nil => simp
      | cons e rest => exact fun he => h.idle_not_mem (he ▸ List.mem_cons_self)
    rw [Steps.collect_succ]
    cases hstep : m.step with
    | mk event next =>
      rw [hstep] at hfirst hnot
      have hrest := hfirst.trans (ih hfirst.concluding)
      cases event with
      | idle => exact absurd rfl hnot
      | input _ | finished | failed _ => exact hfirst
      | running | jumped _ | print _ | warning _ => exact hrest

theorem perform (h : m.Concluding left) {op : Operation} (hop : op.KeepsRun) :
    m.Concludes left (m.perform op).1.pulled (m.perform op).2 ∧
      ∀ taken, (m.perform op).1 = .taken taken → taken = false := by
  cases op with
  | start | interrupt => exact absurd hop id
  | enter s => exact ⟨setListing h _, by simp [Machine.perform]⟩
  | load lines => exact ⟨setListing h _, by simp [Machine.perform]⟩
  | clear => exact ⟨setListing h _, by simp [Machine.perform]⟩
  | setListing p => exact ⟨setListing h p, by simp [Machine.perform]⟩
  | step => exact ⟨step h, by simp [Machine.perform]⟩
  | steps n => exact ⟨collect h n, by simp [Machine.perform]⟩
  | input s =>
    simp only [Machine.perform, h.input s, Answer.pulled, Answer.taken.injEq]
    exact ⟨refl h, fun taken htaken => htaken.symm⟩

theorem performAll (h : m.Concluding left) {ops : List Operation}
    (hops : ∀ op ∈ ops, op.KeepsRun) :
    m.Concludes left ((m.performAll ops).1.flatMap Answer.pulled) (m.performAll ops).2 ∧
      ∀ taken, .taken taken ∈ (m.performAll ops).1 → taken = false := by
  induction ops generalizing m left with
  | nil => exact ⟨refl h, by simp [Machine.performAll]⟩
  | cons op ops ih =>
    obtain ⟨hfirst, hrefused⟩ := perform h (hops op List.mem_cons_self)
    obtain ⟨hothers, hrefused'⟩ :=
      ih hfirst.concluding fun other hother => hops other (List.mem_cons_of_mem op hother)
    simp only [Machine.performAll, List.flatMap_cons, List.mem_cons]
    refine ⟨hfirst.trans hothers, fun taken htaken => ?_⟩
    rcases htaken with htaken | htaken
    · exact hrefused taken htaken.symm
    · exact hrefused' taken htaken

end Concludes

/-- Where the statement of a line fails, the events that are handed over before the next start or
interrupt are its warnings, one error, and then only that the run has finished. The error is an
overflow or a division by zero without a detail; it belonged to no line before it was placed in this
one. The variables stay as the statement found them, and no value is taken. With the first of the
events the machine has finished and has no next line, and after the error nothing changes any
more. -/
theorem failing_statement_ends_run {m : Machine} {number : LineNumber} {statement : Statement}
    {failure : Failure} {ws : List Warning} (hqueue : m.registers.queue = [])
    (hstate : m.registers.state = .running) (hpc : m.registers.pc = some number)
    (hstatement : m.registers.snapshot.statement? number = some statement)
    (hfails : (statement.run m.registers.vars).outcome [] = (.error failure, ws))
    {ops : List Operation} (hops : ∀ op ∈ ops, op.KeepsRun) :
    let error := failure.toError.inLine number
    let answers := (m.performAll ops).1
    let es := answers.flatMap Answer.pulled
    let last := (m.performAll ops).2
    es <+: ws.map .warning ++ .failed error :: List.replicate es.length .finished ∧
    failure.isDirect = true ∧ failure.vars = m.registers.vars ∧
    (error.kind = .overflow ∨ error.kind = .divisionByZero) ∧
    error.line = some number ∧ error.detail = "" ∧
    last.registers.vars = m.registers.vars ∧
    (∀ taken, .taken taken ∈ answers → taken = false) ∧
    (es ≠ [] → last.registers.state = .finished ∧ last.registers.pc = none) ∧
    (ws.length < es.length →
      last.step = (.finished, last) ∧ ∀ s, last.input s = (false, last)) := by
  intro error answers es last
  have hphase : m.phase = .running (some number) := by
    obtain ⟨pc, hphase⟩ := Phase.state_eq_running_iff.mp hstate
    rw [registers, hphase] at hpc
    rw [hphase, ← show pc = some number from hpc]
  have hconcluding := Concluding.failing hqueue hphase hstatement hfails
  obtain ⟨hcourse, hrefused⟩ := Concludes.performAll hconcluding hops
  obtain ⟨hkept, fault, hfault⟩ := Statement.failure_of_run hfails
  have hkind : error.kind = .overflow ∨ error.kind = .divisionByZero := by
    dsimp only [error, Error.inLine]
    rw [hfault]
    cases fault with
    | overflow => exact .inl rfl
    | divisionByZero => exact .inr rfl
  have hfinished (hsome : es ≠ []) : last.phase = .finished := hcourse.phase.trans (if_neg hsome)
  refine ⟨?_, ?_, hkept, hkind, rfl, ?_, hcourse.vars, hrefused, fun hsome => ?_,
    fun hlength => ?_⟩
  · have hbegins := hcourse.told.isPrefix
    rwa [List.append_assoc, List.singleton_append] at hbegins
  · rw [hfault, Error.isDirect, Fault.line_toError]
    rfl
  · dsimp only [error, Error.inLine]
    rw [hfault, Fault.detail_toError]
  · simp [registers, hfinished hsome, Phase.state, Phase.pc?]
  · have hall : (ws.map Event.warning ++ [Event.failed error]).length ≤ es.length := by
      rw [List.length_append, List.length_map]
      exact hlength
    have hnone : last.Concluding [] := List.drop_of_length_le hall ▸ hcourse.concluding
    have hrest := hfinished (List.ne_nil_of_length_pos (by omega))
    exact ⟨Concluding.step_of_rest hrest (hnone.queue_eq hrest), hnone.input⟩

end

/-- A division by zero behind a warning. The variable that was to be set keeps its value, although
a value is offered and the line deleted in the meantime. -/
theorem failing_statement_ends_run_of_division :
    let m := (new.performAll [.load ["10 LET X = 5", "20 LET X = Y + X / 0"], .start, .step]).2
    let ops : List Operation := [.input "7", .steps 1, .enter "20", .step, .step, .input "7"]
    let last := (m.performAll ops).2
    (m.performAll ops).1.flatMap Answer.pulled =
      [.warning (.unknownVariable "Y"), .failed ⟨.divisionByZero, some 20, ""⟩, .finished] ∧
    last.vars = m.vars ∧ m.vars.get? "X" = some 5 ∧ last.step = (.finished, last) := by
  intro m ops last
  have hregisters : (m.registers.queue, m.registers.state, m.registers.pc, m.vars.get? "X") =
      ([], .running, some 20, some 5) := by
    dsimp only [m]
    cbv
  have hstatement : m.registers.snapshot.statement? 20 = some
      (.assign "X" (.binary .add (.var "Y") (.binary .divide (.var "X") (.integer 0)))) := by
    dsimp only [m]
    cbv
  have hfails : ((Statement.assign "X" (.binary .add (.var "Y") (.binary .divide (.var "X")
      (.integer 0)))).run m.registers.vars).outcome [] =
        (.error (Fault.divisionByZero.toFailure m.registers.vars), [.unknownVariable "Y"]) := by
    dsimp only [m]
    cbv
  have hlength : ((m.performAll ops).1.flatMap Answer.pulled).length = 3 := by
    dsimp only [m, ops]
    cbv
  have hops : ∀ op ∈ ops, op.KeepsRun := by simp [ops, Operation.KeepsRun]
  simp only [Prod.mk.injEq] at hregisters
  obtain ⟨hqueue, hstate, hpc, hx⟩ := hregisters
  obtain ⟨hbegins, _, _, _, _, _, hvars, _, _, hrest⟩ :=
    failing_statement_ends_run hqueue hstate hpc hstatement hfails hops
  refine ⟨?_, hvars, hx, (hrest (by rw [hlength]; decide)).1⟩
  rw [List.prefix_iff_eq_take.mp hbegins, hlength]
  rfl

end Machine

end LineBasic
