import Mathlib
import LineBasic.Proofs.Conversations
import LineBasic.Proofs.LineOrder

/-!
# Programs that jump forward only

Where every jump goes to a higher line, the line to be executed next only goes up, by falling
through as well as by jumping. So no line is executed twice, and the room above the next line is
used up in the end. Not every call uses up some of it: while warnings are handed over nothing is
executed, and a wait for a value lasts until a number is given. A run finishes under every sequence
of calls that goes on with the steps and answers the waits.
-/
namespace LineBasic

namespace Program

variable {p : Program} {number : LineNumber} {statement : Statement}

/-- Every jump goes to a line above its own, be it there or not. -/
def Forward (p : Program) : Prop :=
  ∀ entry ∈ p.entries, ∀ target ∈ entry.statement.target?, entry.number < target

instance (p : Program) : Decidable p.Forward :=
  inferInstanceAs (Decidable (∀ entry ∈ p.entries, ∀ target ∈ entry.statement.target?,
    entry.number < target))

/-- No statement jumps, and none halts the program. -/
def Straight (p : Program) : Prop :=
  ∀ entry ∈ p.entries, entry.statement.target? = none ∧ entry.statement ≠ .stop

instance (p : Program) : Decidable p.Straight :=
  inferInstanceAs (Decidable (∀ entry ∈ p.entries, entry.statement.target? = none ∧
    entry.statement ≠ .stop))

def numbers (p : Program) : List LineNumber :=
  p.entries.map Entry.number

theorem mem_numbers_iff : number ∈ p.numbers ↔ p.HasLine number := by
  rw [numbers, List.mem_map, hasLine_iff]

theorem pairwise_numbers (p : Program) : p.numbers.Pairwise (· < ·) :=
  List.pairwise_map.mpr p.ascending

theorem exists_entry (h : p.statement? number = some statement) :
    ∃ entry ∈ p.entries, entry.number = number ∧ entry.statement = statement := by
  obtain ⟨entry, hentry, rfl⟩ := Option.map_eq_some_iff.mp h
  obtain ⟨hmem, rfl⟩ := get?_eq_some_iff.mp hentry
  exact ⟨entry, hmem, rfl, rfl⟩

theorem Forward.lt_target (h : p.Forward) (hstatement : p.statement? number = some statement)
    {target : LineNumber} (htarget : statement.target? = some target) : number < target := by
  obtain ⟨entry, hentry, rfl, rfl⟩ := exists_entry hstatement
  exact h entry hentry target htarget

theorem lt_after? {next : LineNumber} (h : p.after? number = some next) : number < next := by
  have hleast := p.leastLine_after? number
  rw [h] at hleast
  exact hleast.2.1

theorem after?_le {other : LineNumber} (hline : p.HasLine other) (hlt : number < other) :
    ∃ next, p.after? number = some next ∧ next ≤ other := by
  have hleast := p.leastLine_after? number
  cases hnext : p.after? number with
  | none =>
    rw [hnext] at hleast
    exact absurd hlt (hleast other hline)
  | some next =>
    rw [hnext] at hleast
    exact ⟨next, rfl, hleast.2.2 other hline hlt⟩

theorem Forward.lt_resume [PowerRoutine] (h : p.Forward)
    (hstatement : p.statement? number = some statement) {vars : Variables}
    {result : Except Failure (Flow × Variables)} {ws : List Warning}
    (hdoes : statement.Does vars result ws) {next : LineNumber}
    (hnext : (Reference.resume p number result).pc? = some next) : number < next := by
  cases hdoes with
  | remark _ | assign _ | print _ | input _ | branchPassed _ _ => exact lt_after? hnext
  | goto target | branchTaken _ _ => exact h.lt_target hstatement hnext
  | assignFails _ | printFails _ | branchFails _ | stop => cases hnext

theorem Straight.resume [PowerRoutine] (h : p.Straight)
    (hstatement : p.statement? number = some statement) {vars : Variables}
    {result : Except Failure (Flow × Variables)} {ws : List Warning}
    (hdoes : statement.Does vars result ws) :
    (∃ failure, result = .error failure) ∨
      (Reference.resume p number result).pc? = p.after? number := by
  obtain ⟨entry, hentry, rfl, rfl⟩ := exists_entry hstatement
  obtain ⟨hjump, hstop⟩ := h entry hentry
  generalize entry.statement = statement at hdoes hjump hstop
  cases hdoes with
  | remark _ | assign _ | print _ | input _ | branchPassed _ _ => exact .inr rfl
  | assignFails _ | printFails _ | branchFails _ => exact .inl ⟨_, rfl⟩
  | goto _ | branchTaken _ _ => cases hjump
  | stop => exact absurd rfl hstop

theorem Straight.forward (h : p.Straight) : p.Forward := by
  intro entry hentry target htarget
  rw [(h entry hentry).1] at htarget
  cases htarget

end Program

/-! ## The room above the next line -/

namespace Phase

/-- How many line numbers there are from the next line on. -/
def ahead : Option LineNumber → Nat
  | some number => UInt64.size - number.toNat
  | none => 0

/-- What goes down whenever the run moves on. A wait comes before the line that it holds up. -/
def rank : Phase → Nat
  | .idle => 0
  | .finished => 0
  | .running pc => 2 * ahead pc + 1
  | .awaiting _ pc => 2 * ahead pc + 2

theorem ahead_lt {pc : Option LineNumber} {number : LineNumber}
    (h : ∀ next, pc = some next → number < next) : ahead pc < ahead (some number) := by
  have hsize : number.toNat < UInt64.size := number.toNat_lt_size
  cases pc with
  | none =>
    simp only [ahead]
    omega
  | some next =>
    have hlt : number.toNat < next.toNat := UInt64.lt_iff_toNat_lt.mp (h next rfl)
    simp only [ahead]
    omega

theorem rank_lt {phase : Phase} {number : LineNumber}
    (h : ∀ next, phase.pc? = some next → number < next) :
    phase.rank < (running (some number)).rank := by
  have hahead := ahead_lt h
  cases phase with
  | idle | finished =>
    simp only [rank]
    omega
  | running pc | awaiting _ pc =>
    simp only [rank, pc?] at hahead ⊢
    omega

end Phase

namespace Machine

variable {m : Machine} {calls : Nat → Call}

/-! ## What a step executes -/

/-- The line whose statement the next step executes. -/
def line? (m : Machine) : Option LineNumber :=
  match m.queue, m.phase with
  | [], .running (some number) => (m.snapshot.statement? number).map fun _ => number
  | _, _ => none

/-- The lines whose statements are executed in the course of some calls. -/
def executed [PowerRoutine] (m : Machine) : List Call → List LineNumber
  | [] => []
  | .step :: calls => m.line?.toList ++ m.step.2.executed calls
  | .input s :: calls => (m.input s).2.executed calls

/-- All that a step can come to, with the event that it hands over. -/
inductive Proceeds [PowerRoutine] (m : Machine) : Event → Machine → Prop
  | tells {e after} : m.line? = none → m.queue = e :: after.queue → after.reference = m.reference →
      Proceeds m e after
  | rests {e} : m.line? = none → m.queue = [] → (∀ pc, m.phase ≠ .running pc) → Proceeds m e m
  | ends {pc e after} : m.line? = none → m.phase = .running pc →
      (∀ number, pc = some number → ¬ m.snapshot.HasLine number) →
      after.reference = { m.reference with phase := .finished } → Proceeds m e after
  | executes {number statement result ws e after} : m.line? = some number →
      m.phase = .running (some number) → m.snapshot.statement? number = some statement →
      statement.Does m.vars result ws →
      ws.map .warning ++ [Reference.closing number result] = e :: after.queue →
      after.reference = { m.reference with
        phase := Reference.resume m.snapshot number result, vars := Reference.varsAfter result } →
      Proceeds m e after

theorem line?_of_running {number : LineNumber} (hqueue : m.queue = [])
    (hphase : m.phase = .running (some number)) :
    m.line? = (m.snapshot.statement? number).map fun _ => number := by
  simp only [line?, hqueue, hphase]

theorem proceeds_step [PowerRoutine] (m : Machine) : m.Proceeds m.step.1 m.step.2 := by
  cases hqueue : m.queue with
  | cons e rest =>
    rw [step_of_queue_cons hqueue]
    exact .tells (by simp [line?, hqueue]) hqueue rfl
  | nil =>
    cases hphase : m.phase with
    | idle | awaiting _ _ | finished =>
      have hstep : m.step.2 = m := by simp [step, hqueue, hphase]
      rw [hstep]
      exact .rests (by simp [line?, hqueue, hphase]) hqueue (by simp [hphase])
    | running pc =>
      obtain ⟨hgroup, href⟩ := step_of_queue_nil hqueue
      have hyields := m.reference.yields_group
      rw [hgroup, ← href] at hyields
      generalize m.step.1 = e, m.step.2 = after at hyields ⊢
      generalize hes : e :: after.queue = es at hyields
      generalize hafter : after.reference = r at hyields
      cases hyields with
      | idle hother | finished hother | awaits hother => cases hphase.symm.trans hother
      | ends hrunning hmissing =>
        cases hphase.symm.trans hrunning
        have hline : m.line? = none := by
          cases pc with
          | none => simp [line?, hqueue, hphase]
          | some number =>
            have hnone : m.snapshot.statement? number = none := hmissing number rfl
            rw [line?_of_running hqueue hphase, hnone]
            rfl
        refine .ends hline hphase (fun number hnumber => ?_) hafter
        rintro ⟨statement, hstatement⟩
        cases (hmissing number hnumber).symm.trans hstatement
      | @executes number statement _ _ hrunning hstatement hdoes =>
        cases hphase.symm.trans hrunning
        have hst : m.snapshot.statement? number = some statement := hstatement
        have hline : m.line? = some number := by
          rw [line?_of_running hqueue hphase, hst]
          rfl
        exact .executes hline hphase hst hdoes hes.symm hafter

theorem phase_pc?_input (m : Machine) (s : String) : (m.input s).2.phase.pc? = m.phase.pc? := by
  unfold input
  split
  · rename_i hphase _
    rw [hphase]
    rfl
  · rfl

theorem snapshot_input (m : Machine) (s : String) : (m.input s).2.snapshot = m.snapshot := by
  unfold input
  split <;> rfl

theorem Proceeds.snapshot_eq [PowerRoutine] {e : Event} {after : Machine} (h : m.Proceeds e after) :
    after.snapshot = m.snapshot := by
  cases h with
  | rests _ _ _ => rfl
  | tells _ _ href | ends _ _ _ href | executes _ _ _ _ _ href =>
    exact congrArg Reference.program href

/-! ## Each line at most once -/

/-- The lines that are executed are lines of the program, from where the run stands on and in
ascending order. -/
theorem executed_ascending [PowerRoutine] (h : m.snapshot.Forward) (calls : List Call) :
    (m.executed calls).Pairwise (· < ·) ∧
      ∀ number ∈ m.executed calls, m.snapshot.HasLine number ∧
        ∃ pc, m.phase.pc? = some pc ∧ pc ≤ number := by
  induction calls generalizing m with
  | nil => simp [executed]
  | cons call calls ih =>
    cases call with
    | input s =>
      have hrest := ih (m := (m.input s).2) (by rwa [snapshot_input])
      rwa [snapshot_input, phase_pc?_input] at hrest
    | step =>
      have hproceeds := m.proceeds_step
      rw [executed]
      generalize m.step.1 = e, m.step.2 = after at hproceeds ⊢
      have hsnapshot := hproceeds.snapshot_eq
      obtain ⟨hpairwise, hfrom⟩ := ih (m := after) (by rwa [hsnapshot])
      rw [hsnapshot] at hfrom
      cases hproceeds with
      | rests hline _ _ =>
        rw [hline]
        exact ⟨hpairwise, hfrom⟩
      | tells hline _ href =>
        have hphase : after.phase = m.phase := congrArg Reference.phase href
        rw [hline, ← hphase]
        exact ⟨hpairwise, hfrom⟩
      | ends hline _ _ href =>
        have hphase : after.phase = .finished := congrArg Reference.phase href
        rw [hline]
        refine ⟨hpairwise, fun number hnumber => ?_⟩
        obtain ⟨_, pc, hpc, _⟩ := hfrom number hnumber
        rw [hphase] at hpc
        cases hpc
      | @executes number statement result _ _ _ hline hphase hstatement hdoes _ href =>
        have hresume : after.phase = Reference.resume m.snapshot number result :=
          congrArg Reference.phase href
        have habove : ∀ other ∈ after.executed calls, number < other := by
          intro other hother
          obtain ⟨_, next, hnext, hle⟩ := hfrom other hother
          rw [hresume] at hnext
          exact UInt64.lt_of_lt_of_le (h.lt_resume hstatement hdoes hnext) hle
        rw [hline, hphase]
        refine ⟨List.pairwise_cons.mpr ⟨habove, hpairwise⟩, fun other hother => ?_⟩
        rcases List.mem_cons.mp hother with rfl | hother
        · exact ⟨⟨statement, hstatement⟩, other, rfl, UInt64.le_refl other⟩
        · exact ⟨(hfrom other hother).1, number, rfl, UInt64.le_of_lt (habove other hother)⟩

/-! ## What is left of a run -/

/-- What is left of a run: how far it can still go, and how much of the last statement is to be
told before it goes on. -/
def left (m : Machine) : ℕ ×ₗ ℕ :=
  toLex (m.phase.rank, m.queue.length)

theorem left_lt_of_rank {after : Machine} (h : after.phase.rank < m.phase.rank) :
    after.left < m.left :=
  Prod.Lex.toLex_lt_toLex.mpr (.inl h)

/-- A step uses up some of what is left, unless the run waits or is over. -/
theorem left_step [PowerRoutine] (h : m.snapshot.Forward) :
    (m.step.2 = m ∧ m.queue = [] ∧ ∀ pc, m.phase ≠ .running pc) ∨ m.step.2.left < m.left := by
  have hproceeds := m.proceeds_step
  generalize m.step.1 = e, m.step.2 = after at hproceeds ⊢
  cases hproceeds with
  | rests _ hqueue hphase => exact .inl ⟨rfl, hqueue, hphase⟩
  | tells _ hqueue href =>
    have hphase : after.phase = m.phase := congrArg Reference.phase href
    refine .inr (Prod.Lex.toLex_lt_toLex.mpr (.inr ?_))
    simp [hphase, hqueue]
  | ends _ hphase _ href =>
    have hfinished : after.phase = .finished := congrArg Reference.phase href
    refine .inr (left_lt_of_rank ?_)
    simp [hphase, hfinished, Phase.rank]
  | @executes number _ result _ _ _ _ hphase hstatement hdoes _ href =>
    have hresume : after.phase = Reference.resume m.snapshot number result :=
      congrArg Reference.phase href
    refine .inr (left_lt_of_rank ?_)
    rw [hphase, hresume]
    exact Phase.rank_lt fun next hnext => h.lt_resume hstatement hdoes hnext

theorem left_input_of_awaiting {name s : String} {pc : Option LineNumber}
    (hphase : m.phase = .awaiting name pc) (hs : (typedValue? s).isSome) :
    (m.input s).2.left < m.left := by
  obtain ⟨value, hvalue⟩ := Option.isSome_iff_exists.mp hs
  apply left_lt_of_rank
  simp [input, hphase, hvalue, Phase.rank]

section

variable [PowerRoutine]

theorem left_answer (h : m.snapshot.Forward) (call : Call) :
    (m.answer call).2 = m ∨ (m.answer call).2.left < m.left := by
  cases call with
  | step => exact (left_step h).imp_left And.left
  | input s =>
    rw [answer]
    dsimp only
    unfold input
    split
    · rename_i hphase hvalue
      refine .inr (left_lt_of_rank ?_)
      simp [hphase, Phase.rank]
    · exact .inl rfl

/-! ## Runs under any calls -/

def afterCalls (m : Machine) (calls : Nat → Call) (n : Nat) : Machine :=
  (m.answers ((List.range n).map calls)).2

theorem afterCalls_succ (m : Machine) (calls : Nat → Call) (n : Nat) :
    m.afterCalls calls (n + 1) = ((m.afterCalls calls n).answer (calls n)).2 := by
  simp [afterCalls, List.range_succ, answers_append, answers]

/-- The calls go on with the run for ever and answer each of its waits in the end. -/
structure Fair (m : Machine) (calls : Nat → Call) : Prop where
  steps : ∀ i, ∃ j, i ≤ j ∧ calls j = .step
  values : ∀ i name pc, (m.afterCalls calls i).phase = .awaiting name pc →
    ∃ j s, i ≤ j ∧ calls j = .input s ∧ (typedValue? s).isSome

theorem afterCalls_preserves {P : Machine → Prop} (hanswer : ∀ m call, P m → P (m.answer call).2)
    (h : P m) (calls : Nat → Call) (n : Nat) : P (m.afterCalls calls n) := by
  induction n with
  | zero => exact h
  | succ n ih =>
    rw [afterCalls_succ]
    exact hanswer _ _ ih

theorem snapshot_answer (m : Machine) (call : Call) : (m.answer call).2.snapshot = m.snapshot := by
  cases call with
  | step => exact m.proceeds_step.snapshot_eq
  | input s => exact m.snapshot_input s

theorem answer_phase_ne_idle (call : Call) (h : m.phase ≠ .idle) :
    (m.answer call).2.phase ≠ .idle := by
  cases call with
  | step => exact step_phase_ne_idle h
  | input s =>
    cases htaken : (m.input s).1 with
    | true => exact input_phase_ne_idle htaken
    | false =>
      rw [answer, input_of_refused htaken]
      exact h

theorem answer_of_rest (hphase : m.phase = .finished) (hqueue : m.queue = []) (call : Call) :
    (m.answer call).2 = m := by
  cases call with
  | step => simp [answer, step, hphase, hqueue]
  | input s => simp [answer, input, hphase]

section Fairness

variable (hforward : m.snapshot.Forward)
include hforward

theorem forward_afterCalls (calls : Nat → Call) (n : Nat) :
    (m.afterCalls calls n).snapshot.Forward :=
  afterCalls_preserves (P := fun m => m.snapshot.Forward)
    (fun m call h => by rwa [snapshot_answer]) hforward calls n

theorem left_afterCalls {i j : Nat} (hij : i ≤ j) : m.afterCalls calls j = m.afterCalls calls i ∨
    (m.afterCalls calls j).left < (m.afterCalls calls i).left := by
  induction j, hij using Nat.le_induction with
  | base => exact .inl rfl
  | succ j _ ih =>
    rw [afterCalls_succ]
    rcases left_answer (forward_afterCalls hforward calls j) (calls j) with hsame | hless
    · rwa [hsame]
    · rcases ih with hsame | hless'
      · exact .inr (hsame ▸ hless)
      · exact .inr (hless.trans hless')

theorem Fair.progress (hfair : m.Fair calls) {i : Nat}
    (hidle : (m.afterCalls calls i).phase ≠ .idle)
    (hover : ¬ ((m.afterCalls calls i).phase = .finished ∧ (m.afterCalls calls i).queue = [])) :
    ∃ j, i ≤ j ∧ (m.afterCalls calls j).left < (m.afterCalls calls i).left := by
  by_cases hwaits : (m.afterCalls calls i).queue = [] ∧
      ∃ name pc, (m.afterCalls calls i).phase = .awaiting name pc
  · obtain ⟨_, name, pc, hphase⟩ := hwaits
    obtain ⟨j, s, hij, hcall, hs⟩ := hfair.values i name pc hphase
    rcases left_afterCalls hforward hij with hsame | hless
    · refine ⟨j + 1, by omega, ?_⟩
      rw [afterCalls_succ, hcall, hsame]
      exact left_input_of_awaiting hphase hs
    · exact ⟨j, hij, hless⟩
  · obtain ⟨j, hij, hcall⟩ := hfair.steps i
    rcases left_afterCalls hforward hij with hsame | hless
    · refine ⟨j + 1, by omega, ?_⟩
      rw [afterCalls_succ, hcall, hsame]
      rcases left_step (forward_afterCalls hforward calls i) with ⟨_, hqueue, hrunning⟩ | hless
      · cases hphase : (m.afterCalls calls i).phase with
        | idle => exact absurd hphase hidle
        | finished => exact absurd ⟨hphase, hqueue⟩ hover
        | running pc => exact absurd hphase (hrunning pc)
        | awaiting name pc => exact absurd ⟨hqueue, name, pc, hphase⟩ hwaits
      · exact hless
    · exact ⟨j, hij, hless⟩

theorem Fair.finishes (hfair : m.Fair calls) (hidle : m.phase ≠ .idle) :
    ∃ k, ∀ n, k ≤ n →
      (m.afterCalls calls n).phase = .finished ∧ (m.afterCalls calls n).queue = [] := by
  have hactive (i : Nat) : (m.afterCalls calls i).phase ≠ .idle :=
    afterCalls_preserves (P := fun m => m.phase ≠ .idle) (fun _ call => answer_phase_ne_idle call)
      hidle calls i
  -- By induction on what is left at the `i`-th call.
  suffices hreach : ∀ (amount : ℕ ×ₗ ℕ) (i : Nat), (m.afterCalls calls i).left = amount →
      ∃ k, (m.afterCalls calls k).phase = .finished ∧ (m.afterCalls calls k).queue = [] by
    obtain ⟨k, hphase, hqueue⟩ := hreach _ 0 rfl
    refine ⟨k, fun n hn => ?_⟩
    induction n, hn using Nat.le_induction with
    | base => exact ⟨hphase, hqueue⟩
    | succ n _ ih => rwa [afterCalls_succ, answer_of_rest ih.1 ih.2]
  intro amount
  induction amount using WellFoundedLT.induction with
  | ind amount ih =>
    intro i hamount
    by_cases hover : (m.afterCalls calls i).phase = .finished ∧ (m.afterCalls calls i).queue = []
    · exact ⟨i, hover⟩
    · obtain ⟨j, _, hless⟩ := hfair.progress hforward (hactive i) hover
      exact ih _ (hamount ▸ hless) j rfl

end Fairness

/-! ## Programs without jumps -/

/-- What waits in the queue is handed over, or waits there still. -/
theorem mem_answers_of_mem_queue {e : Event} (h : e ∈ m.queue) (calls : List Call) :
    .event e ∈ (m.answers calls).1 ∨ e ∈ (m.answers calls).2.queue := by
  induction calls generalizing m with
  | nil => exact .inr h
  | cons call calls ih =>
    simp only [answers, List.mem_append]
    have hcall : .event e ∈ (m.answer call).1 ∨ e ∈ (m.answer call).2.queue := by
      cases call with
      | input s =>
        rw [answer, queue_input]
        exact .inr h
      | step =>
        cases hqueue : m.queue with
        | nil => simp [hqueue] at h
        | cons first rest =>
          simpa [answer, step_of_queue_cons hqueue, hqueue] using h
    rcases hcall with hsaid | hqueued
    · exact .inl (.inl hsaid)
    · exact (ih hqueued).imp_left .inr

/-- The calls bring the run to its end, and no error is handed over. -/
structure EndsWell (m : Machine) (calls : List Call) : Prop where
  phase : (m.answers calls).2.phase = .finished
  queue : (m.answers calls).2.queue = []
  fails : ∀ e, .event (.failed e) ∉ (m.answers calls).1

theorem EndsWell.tail {call : Call} {calls : List Call} (h : m.EndsWell (call :: calls)) :
    (m.answer call).2.EndsWell calls where
  phase := h.phase
  queue := h.queue
  fails e he := h.fails e (List.mem_append_right _ he)

/-- An error that waits in the queue would be handed over before the end. -/
theorem EndsWell.unfailed {calls : List Call} (h : m.EndsWell (.step :: calls)) (error : Error) :
    .failed error ∉ m.step.1 :: m.step.2.queue := by
  intro hmem
  rcases List.mem_cons.mp hmem with hnow | hqueued
  · apply h.fails error
    exact List.mem_append_left _ (hnow ▸ List.mem_cons_self)
  · rcases mem_answers_of_mem_queue hqueued calls with hsaid | hleft
    · exact h.tail.fails error hsaid
    · have hempty : (m.step.2.answers calls).2.queue = [] := h.tail.queue
      simp [hempty] at hleft

/-- A step executes nothing and stays at its line, or it executes this line and goes on to the
next. -/
theorem Proceeds.straight {e : Event} {after : Machine} {pc : LineNumber} (h : m.Proceeds e after)
    (hstraight : m.snapshot.Straight) (hunfailed : ∀ error, .failed error ∉ e :: after.queue)
    (hpc : m.phase.pc? = some pc) (hline : m.snapshot.HasLine pc) :
    (m.line? = none ∧ after.phase.pc? = some pc) ∨
      (m.line? = some pc ∧ after.phase.pc? = m.snapshot.after? pc) := by
  cases h with
  | rests hnone _ _ => exact .inl ⟨hnone, hpc⟩
  | tells hnone _ href =>
    have hsame : after.phase = m.phase := congrArg Reference.phase href
    exact .inl ⟨hnone, by rw [hsame, hpc]⟩
  | ends _ hrunning hmissing _ =>
    rw [hrunning] at hpc
    exact absurd hline (hmissing pc hpc)
  | @executes _ _ result _ _ _ hsome hrunning hstatement hdoes hevents href =>
    have hresume : after.phase = Reference.resume m.snapshot _ result :=
      congrArg Reference.phase href
    rw [hrunning] at hpc
    cases hpc
    rcases hstraight.resume hstatement hdoes with ⟨failure, rfl⟩ | hgoes
    · apply absurd _ (hunfailed (failure.toError.inLine pc))
      rw [← hevents]
      exact List.mem_append_right _ List.mem_cons_self
    · exact .inr ⟨hsome, by rw [hresume, hgoes]⟩

theorem mem_executed (hstraight : m.snapshot.Straight) {calls : List Call}
    (hends : m.EndsWell calls) {number pc : LineNumber} (hpc : m.phase.pc? = some pc)
    (hstart : m.snapshot.HasLine pc) (hline : m.snapshot.HasLine number) (hle : pc ≤ number) :
    number ∈ m.executed calls := by
  induction calls generalizing m pc with
  | nil =>
    have hphase : m.phase = .finished := hends.phase
    rw [hphase] at hpc
    cases hpc
  | cons call calls ih =>
    have htail := hends.tail
    have hsnapshot := m.snapshot_answer call
    have hstraight' : (m.answer call).2.snapshot.Straight := by rwa [hsnapshot]
    have hline' : (m.answer call).2.snapshot.HasLine number := by rwa [hsnapshot]
    cases call with
    | input s =>
      apply ih hstraight' htail _ _ hline' hle
      · exact (m.phase_pc?_input s).trans hpc
      · rwa [hsnapshot]
    | step =>
      apply List.mem_append.mpr
      rcases m.proceeds_step.straight hstraight hends.unfailed hpc hstart with
        ⟨_, hpc'⟩ | ⟨hexecuted, hpc'⟩
      · right
        apply ih hstraight' htail hpc' _ hline' hle
        rwa [hsnapshot]
      · by_cases hhere : number = pc
        · left
          simp [hexecuted, hhere]
        · right
          have hlt : pc < number := UInt64.lt_of_le_of_ne hle (Ne.symm hhere)
          obtain ⟨next, hnext, hle'⟩ := Program.after?_le hline hlt
          apply ih hstraight' htail (hpc'.trans hnext) _ hline' hle'
          rw [hsnapshot]
          exact Program.hasLine_of_after? hnext

end

theorem start_phase_pc? (m : Machine) : m.start.phase.pc? = m.listing.first? := by
  unfold start
  cases m.listing.first? <;> rfl

/-- A program whose jumps all go forward executes no line twice: the lines executed after a start go
up, and there are no more of them than the program has. Under all calls that go on with the steps
and answer the waits, the run finishes. If the program has no jumps and no end but its last line, a
run that has finished without an error has executed each of its lines once and in order. -/
theorem forward_program_finishes [PowerRoutine] {m : Machine} (hforward : m.listing.Forward) :
    (∀ calls, (m.start.executed calls).Pairwise (· < ·) ∧
      (∀ number ∈ m.start.executed calls, m.listing.HasLine number) ∧
      (m.start.executed calls).length ≤ m.listing.size) ∧
    (∀ calls, m.start.Fair calls → ∃ k, ∀ n, k ≤ n →
      (m.start.afterCalls calls n).phase = .finished ∧
      (m.start.afterCalls calls n).queue = []) ∧
    (m.listing.Straight → ∀ calls, m.start.EndsWell calls →
      m.start.executed calls = m.listing.numbers) := by
  have hirrefl : Std.Irrefl fun a b : LineNumber => a < b := ⟨UInt64.lt_irrefl⟩
  have hantisymm : Std.Antisymm fun a b : LineNumber => a < b :=
    ⟨fun a b hab hba => absurd hba (UInt64.lt_asymm hab)⟩
  have hascending (calls : List Call) := executed_ascending (m := m.start) hforward calls
  refine ⟨fun calls => ?_, fun calls hfair => ?_, fun hstraight calls hends => ?_⟩
  · obtain ⟨hpairwise, hlines⟩ := hascending calls
    refine ⟨hpairwise, fun number hnumber => (hlines number hnumber).1, ?_⟩
    have hsubset : m.start.executed calls ⊆ m.listing.numbers := fun number hnumber =>
      Program.mem_numbers_iff.mpr (hlines number hnumber).1
    have hnodup : (m.start.executed calls).Nodup := hpairwise.imp UInt64.ne_of_lt
    have hlength := (hnodup.subperm hsubset).length_le
    rwa [Program.numbers, List.length_map] at hlength
  · exact hfair.finishes hforward m.start_phase_ne_idle
  · obtain ⟨hpairwise, hlines⟩ := hascending calls
    apply hpairwise.eq_of_mem_iff m.listing.pairwise_numbers
    intro number
    rw [Program.mem_numbers_iff]
    constructor
    · exact fun hnumber => (hlines number hnumber).1
    · intro hline
      have hfirst := m.listing.leastLine_first?
      cases hpc : m.listing.first? with
      | none =>
        rw [hpc] at hfirst
        exact absurd trivial (hfirst number hline)
      | some pc =>
        rw [hpc] at hfirst
        apply mem_executed (m := m.start) hstraight hends (m.start_phase_pc?.trans hpc) _ hline
        · exact hfirst.2.2 number hline trivial
        · exact Program.hasLine_of_first? hpc

/-- A wait, a warning, and the largest line number. With steps and numbers in turn the run finishes,
and each of the lines is executed. -/
theorem forward_program_finishes_at_largest_number :
    let m := new.load ["5 INPUT X", "10 PRINT X + Y", "18446744073709551615 PRINT X"]
    let calls : List Call := [.step, .input "NO", .input "3", .step, .step, .step, .step]
    let turns : Nat → Call := fun n => if n % 2 = 0 then .step else .input "3"
    m.listing.Forward ∧ m.listing.Straight ∧
    m.start.executed calls = [5, 10, 18446744073709551615] ∧
    ∃ k, ∀ n, k ≤ n → (m.start.afterCalls turns n).phase = .finished := by
  intro m calls turns
  have hstraight : m.listing.Straight := by
    apply of_decide_eq_true
    dsimp only [m]
    cbv
  have hnumbers : m.listing.numbers = [5, 10, 18446744073709551615] := by
    dsimp only [m]
    cbv
  have hanswers : (fun after : List Sign × Machine => (after.1, after.2.phase, after.2.queue))
      (m.start.answers calls) = ([.event (.input "X"), .taken "3",
        .event (.warning (.unknownVariable "Y")), .event (.print "3"), .event (.print "3"),
        .event .finished], .finished, []) := by
    dsimp only [m, calls]
    cbv
  simp only [Prod.mk.injEq] at hanswers
  obtain ⟨hsigns, hphase, hqueue⟩ := hanswers
  have hends : m.start.EndsWell calls := ⟨hphase, hqueue, by simp [hsigns]⟩
  have hfair : m.start.Fair turns := by
    refine ⟨fun i => ⟨2 * i, by omega, by simp [turns]⟩, fun i name pc _ => ?_⟩
    exact ⟨2 * i + 1, "3", by omega, by simp [turns], by cbv⟩
  have hforward := hstraight.forward
  obtain ⟨_, hfinishes, hexecuted⟩ := forward_program_finishes hforward
  refine ⟨hforward, hstraight, ?_, ?_⟩
  · rw [← hnumbers]
    exact hexecuted hstraight calls hends
  · obtain ⟨k, hk⟩ := hfinishes turns hfair
    exact ⟨k, fun n hn => (hk n hn).1⟩

end Machine

end LineBasic
