import Mathlib
import LineBasic.Proofs.RunOrigin

/-!
# Interrupting a run

A request to interrupt a run is looked at between two batches of events only. From the request on,
the session shows what is left of the present batch; if this leads to a wait for a value, the wait
is gone through as ever. Then the run is broken off, unless it has come to its end by itself or a
write has failed. That a run says `BREAK` once and not before can be told from the log, since no
program can print this line: all that programs print are numbers.
-/
namespace LineBasic

/-! ## What a machine in a run hands over -/

section

variable [PowerRoutine]

theorem Reference.Yields.print_mem {r r' : Reference} {es : List Event} {text : String}
    (h : r.Yields es r') (hmem : .print text ∈ es) : ∃ v, text = Decimal.ofInt v := by
  cases h with
  | idle _ | finished _ | awaits _ | ends _ _ => simp at hmem
  | @executes number _ result _ _ _ hdoes =>
    have hclosing : closing number result = .print text := by simpa [eq_comm] using hmem
    cases hdoes with
    | print _ =>
      cases hclosing
      exact ⟨_, rfl⟩
    | remark _ | assign _ | assignFails _ | printFails _ | input _ | goto _ | branchTaken _ _
    | branchPassed _ _ | branchFails _ | stop => cases hclosing

namespace Machine

variable {m : Machine}

def QueuesNumbers (m : Machine) : Prop :=
  ∀ text, .print text ∈ m.queue → ∃ v, text = Decimal.ofInt v

theorem QueuesNumbers.step_events (h : m.QueuesNumbers) {text : String}
    (hmem : .print text ∈ m.step.1 :: m.step.2.queue) : ∃ v, text = Decimal.ofInt v := by
  cases hqueue : m.queue with
  | nil =>
    obtain ⟨hgroup, _⟩ := step_of_queue_nil hqueue
    rw [← hgroup] at hmem
    exact m.reference.yields_group.print_mem hmem
  | cons e rest =>
    apply h text
    rw [step_of_queue_cons hqueue] at hmem
    rwa [hqueue]

theorem QueuesNumbers.perform (m : Machine) (op : Operation) (h : m.QueuesNumbers) :
    (m.perform op).2.QueuesNumbers := by
  refine perform_preserves (fun _ _ h => h) (fun _ _ _ hmem => ?_) (fun _ _ _ hmem => ?_)
    (fun m s h => ?_) (fun m h text hmem => ?_) m op h
  · cases hmem
  · cases hmem
  · rw [QueuesNumbers, queue_input]
    exact h
  · exact h.step_events (List.mem_cons_of_mem _ hmem)

theorem Reached.print_eq (h : m.Reached) {text : String} (hevent : m.step.1 = .print text) :
    ∃ v, text = Decimal.ofInt v := by
  have hnew : Machine.new.QueuesNumbers := fun _ hmem => absurd hmem List.not_mem_nil
  obtain ⟨ops, rfl⟩ := h
  have hqueue := performAll_preserves QueuesNumbers.perform hnew ops
  exact hqueue.step_events (hevent ▸ List.mem_cons_self)

end Machine

end

/-! ## The line that tells of a break -/

namespace Session

theorem tell_inj {a b : String} : tell a = tell b ↔ a = b := by
  simp [tell]

theorem tell_number_ne_broken (v : Int) : tell (Decimal.ofInt v) ≠ broken := by
  intro h
  have hesc : '\x1b' ∈ (Decimal.ofInt v).toList := by
    rw [tell_inj.mp h]
    decide
  have hdigits : '\x1b' ∉ (Decimal.ofNat v.natAbs).toList := by
    intro hmem
    rw [Decimal.ofNat, String.toList_ofList] at hmem
    have hdigit := Nat.isDigit_of_mem_toDigits (by decide) (by decide) hmem
    exact absurd hdigit (by decide)
  unfold Decimal.ofInt at hesc
  split at hesc
  · rw [String.toList_append, List.mem_append] at hesc
    rcases hesc with hesc | hesc
    · exact absurd hesc (by decide)
    · exact hdigits hesc
  · exact hdigits hesc

theorem caution_ne_broken (w : Warning) : caution w ≠ broken := by
  intro h
  have hmark := congrArg (fun text => text.toList[2]?) (tell_inj.mp h)
  simp [faint, bold] at hmark

theorem report_ne_broken (e : Error) : report e ≠ broken := by
  intro h
  have hmark := congrArg (fun text => text.toList[4]?) (tell_inj.mp h)
  simp [bold] at hmark

end Session

/-! ## The way out of a run -/

def LogEntry.question? : LogEntry → Option (Channel × String)
  | .read channel prompt _ => some (channel, prompt)
  | _ => none

namespace Session

variable {s : Session}

/-- All of the run has been said: what is left is to announce the prompt, or the session is over. -/
def HandedBack (s : Session) : Prop :=
  (s.activity = .prompting ∧ s.outbox = [ready]) ∨ s.activity = .closed

def BeginsBatch (s : Session) : Prop :=
  s.demand = .advance ∧ s.activity = .driving 0 ∧ s.interrupted = false

/-- How a run ends that is to be interrupted, with the events it still had and their log: a write
fails, or the run comes to its end by itself, or it is broken off and this is said once. -/
inductive Outcome (events : List Event) (log : List LogEntry) (s : Session) : Prop
  | unwritten {channel} : s.activity = .closed → .writeFailed channel ∈ log →
      .performed broken ∉ log → Outcome events log s
  | ended {e} : s.activity = .prompting → e ∈ events →
      (e = .finished ∨ ∃ error, e = .failed error) → .performed broken ∉ log → Outcome events log s
  | brokenOff : s.activity = .prompting → s.machine.phase = .idle →
      (∀ e ∈ events, e.ends = false) → log.count (.performed broken) = 1 → Outcome events log s

theorem Outcome.after {events more : List Event} {log first : List LogEntry}
    (h : Outcome events log s) (hmore : ∀ e ∈ more, e.ends = false)
    (hfirst : .performed Session.broken ∉ first) : Outcome (more ++ events) (first ++ log) s := by
  cases h with
  | unwritten hclosed hfailed hunbroken =>
    exact .unwritten hclosed (List.mem_append_right _ hfailed) (by simp [hfirst, hunbroken])
  | ended hprompting hmem hlast hunbroken =>
    exact .ended hprompting (List.mem_append_right _ hmem) hlast (by simp [hfirst, hunbroken])
  | brokenOff hprompting hidle hends honce =>
    refine .brokenOff hprompting hidle (fun e he => ?_) ?_
    · rcases List.mem_append.mp he with he | he
      · exact hmore e he
      · exact hends e he
    · rw [List.count_append, List.count_eq_zero_of_not_mem hfirst, honce]

theorem demand_of_asking {name : String} (hactivity : s.activity = .asking name)
    (houtbox : s.outbox = []) : s.demand = .readLine .input (name ++ "? ") := by
  simp [demand, houtbox, hactivity]

theorem demand_of_driving {budget : Nat} (hactivity : s.activity = .driving budget)
    (houtbox : s.outbox = []) : s.demand = .advance := by
  simp [demand, houtbox, hactivity]

theorem advance_eq_display [PowerRoutine] {budget : Nat} {e : Event}
    (hactivity : s.activity = .driving (budget + 1)) (hevent : s.machine.step.1 = e) :
    s.advance = { s with machine := s.machine.step.2 }.display budget e := by
  simp [advance, hactivity, drive, hevent]

theorem Orderly.outbox_length [PowerRoutine] (h : s.Orderly) (hrun : s.activity.InRun) :
    s.outbox.length ≤ 1 := by
  have hholds := h.holds
  cases hactivity : s.activity with
  | driving _ =>
    rw [hactivity] at hholds
    exact hholds.2.1
  | asking _ =>
    rw [hactivity] at hholds
    exact hholds
  | prompting | naming | opening _ | closed =>
    rw [hactivity] at hrun
    exact absurd hrun id

theorem interrupt_of_interrupted (h : s.interrupted = true) : s.interrupt = s := by
  cases s
  cases h
  rfl

end Session

namespace Replay

open Session (ready broken report HandedBack BeginsBatch Outcome)

section

variable [PowerRoutine]

/-- Without beginning another batch, the replay comes to where the run is handed back, with these
events and this log. -/
inductive Winds : Replay → List Event → List LogEntry → Replay → Prop
  | done {r} : r.session.HandedBack → Winds r [] [] r
  | step {r first next events log last} : ¬ r.session.HandedBack → ¬ r.session.BeginsBatch →
      r.Passes first next → Winds next events log last →
      Winds r (r.session.event?.toList ++ events) (first ++ log) last

namespace Winds

variable {r next last : Replay} {events : List Event} {first log : List LogEntry}
variable {budget : Nat}

theorem exists_run (h : Winds r events log last) :
    ∃ k, r.run k = (log, last) ∧ r.events k = events ∧ last.session.HandedBack ∧
      ∀ j, j < k → ¬ (r.run j).2.session.HandedBack ∧ ¬ (r.run j).2.session.BeginsBatch := by
  induction h with
  | done hback => exact ⟨0, rfl, rfl, hback, fun j hj => absurd hj (Nat.not_lt_zero j)⟩
  | step hback hbatch hpasses _ ih =>
    obtain ⟨k, hrun, hevents, hlast, hbefore⟩ := ih
    have hstep := step_eq_of_passes hpasses
    refine ⟨k + 1, ?_, ?_, hlast, fun j hj => ?_⟩
    · rw [run_succ, hstep, hrun]
    · rw [Replay.events, hstep, hevents]
    · cases j with
      | zero => exact ⟨hback, hbatch⟩
      | succ j =>
        rw [run_succ, hstep]
        exact hbefore j (by omega)

theorem meet (hback : ¬ r.session.HandedBack) (hneed : r.session.demand ≠ .advance)
    (hpasses : r.Passes first next) (h : Winds next events log last) :
    Winds r events (first ++ log) last := by
  have hstep := Winds.step hback (fun hbatch => hneed hbatch.1) hpasses h
  rwa [Session.event?_of_demand hneed] at hstep

theorem pull (hneed : r.session.demand = .advance)
    (hactivity : r.session.activity = .driving (budget + 1))
    (h : Winds { r with session := r.session.advance } events log last) :
    Winds r (r.session.machine.step.1 :: events) log last := by
  have hback : ¬ r.session.HandedBack := by simp [HandedBack, hactivity]
  have hbatch : ¬ r.session.BeginsBatch := by simp [BeginsBatch, hactivity]
  have hstep := Winds.step hback hbatch (.advances hneed) h
  rwa [Session.event?_of_driving hneed hactivity] at hstep

theorem of_last_line {line : String} (hactivity : r.session.activity = .prompting)
    (houtbox : r.session.outbox = [Session.tell line, ready]) :
    ∃ log last, r.Winds [] log last ∧
      ((last.session.activity = .closed ∧ log = [.writeFailed .basic]) ∨
        (last.session.activity = .prompting ∧ last.session.machine = r.session.machine ∧
          (log = [.performed (Session.tell line)] ∨
            log = [.performed (Session.tell line), .interrupt]))) := by
  have hneed : r.session.demand = .perform (Session.tell line) := by simp [Session.demand, houtbox]
  have hidle : r.session.demand ≠ .advance := by simp [hneed]
  have hback : ¬ r.session.HandedBack := by simp [HandedBack, hactivity, houtbox]
  have hdone : r.session.performed.HandedBack :=
    .inl ⟨hactivity, by simp [Session.performed, houtbox]⟩
  by_cases hfail : r.surroundings.failAt = some (r.writes + 1)
  · exact ⟨_, _, meet hback hidle (.writeFails hneed hfail) (.done (.inr rfl)), .inl ⟨rfl, rfl⟩⟩
  · by_cases hdue : r.writes + 1 ∈ r.surroundings.interruptAt
    · exact ⟨_, _, meet hback hidle (.writeInterrupted hneed hfail hdue) (.done hdone),
        .inr ⟨hactivity, rfl, .inr rfl⟩⟩
    · exact ⟨_, _, meet hback hidle (.written hneed hfail hdue) (.done hdone),
        .inr ⟨hactivity, rfl, .inl rfl⟩⟩

end Winds

def Asks (question : Channel × String) (name : String) : Prop :=
  question = (.input, name ++ "? ")

/-- The replay winds down and the run stops, with at most `budget` more events. Only the last of
them may pause the run, and values are asked for just in this pause and in the current one. -/
structure Descent (r : Replay) (budget : Nat) (current : Option String) (events : List Event)
    (log : List LogEntry) (last : Replay) : Prop where
  winds : r.Winds events log last
  stops : Outcome events log last.session
  few : events.length ≤ budget
  pauses : ∀ e ∈ events.dropLast, e.pauses = false
  asks : ∀ question, question ∈ log.filterMap LogEntry.question? ↔
    ∃ name, Asks question name ∧ (current = some name ∨ .input name ∈ events)

def Descends (r : Replay) (budget : Nat) (current : Option String) : Prop :=
  ∃ events log last, r.Descent budget current events log last

namespace Descends

variable {r next : Replay} {first : List LogEntry} {budget : Nat} {current : Option String}
variable {name : String}

/-! ### One step -/

theorem silent {after : Option String} (hback : ¬ r.session.HandedBack)
    (hbatch : ¬ r.session.BeginsBatch) (hevent : r.session.event? = none)
    (hpasses : r.Passes first next) (hbroken : .performed broken ∉ first)
    (hasks : ∀ question, (∃ name, Asks question name ∧ current = some name) ↔
      question ∈ first.filterMap LogEntry.question? ∨
        ∃ name, Asks question name ∧ after = some name)
    (h : next.Descends budget after) : r.Descends budget current := by
  obtain ⟨events, log, last, hdescent⟩ := h
  have hwinds := Winds.step hback hbatch hpasses hdescent.winds
  rw [hevent] at hwinds
  have hstops : Outcome ([] ++ events) (first ++ log) last.session :=
    hdescent.stops.after (by simp) hbroken
  refine ⟨events, first ++ log, last, hwinds, hstops, hdescent.few, hdescent.pauses, ?_⟩
  intro question
  simp only [and_or_left, exists_or, hasks question, List.filterMap_append, List.mem_append,
    hdescent.asks question, or_assoc]

theorem unasked (hback : ¬ r.session.HandedBack) (hneed : r.session.demand ≠ .advance)
    (hpasses : r.Passes first next) (hbroken : .performed broken ∉ first)
    (hasks : first.filterMap LogEntry.question? = []) (h : next.Descends budget current) :
    r.Descends budget current :=
  silent hback (fun hbatch => hneed hbatch.1) (Session.event?_of_demand hneed) hpasses hbroken
    (by simp [hasks]) h

theorem perform {e : Effect} (hback : ¬ r.session.HandedBack)
    (hneed : r.session.demand = .perform e) (hmute : ∀ channel text, e ≠ .write channel text)
    (h : Descends { r with session := r.session.performed } budget current) :
    r.Descends budget current := by
  refine unasked hback (by simp [hneed]) (.performed hneed hmute) ?_ rfl h
  intro hmem
  exact hmute _ _ (LogEntry.performed.inj (List.mem_singleton.mp hmem)).symm

/-- A write that fails is the last thing to happen, so that what is due after it is not asked. -/
theorem write {channel : Channel} {text : String} (hback : ¬ r.session.HandedBack)
    (hinterrupted : r.session.interrupted = true)
    (hneed : r.session.demand = .perform (.write channel text))
    (hbroken : .write channel text ≠ broken)
    (h : Descends { r with session := r.session.performed, writes := r.writes + 1 } budget
      current) :
    r.Descends budget none ∨ r.Descends budget current := by
  have hidle : r.session.demand ≠ .advance := by simp [hneed]
  by_cases hfail : r.surroundings.failAt = some (r.writes + 1)
  · refine .inl ⟨[], _, _, .meet hback hidle (.writeFails hneed hfail) (.done (.inr rfl)), ?_,
      by simp, by simp, by simp [LogEntry.question?]⟩
    exact .unwritten rfl List.mem_cons_self (by simp)
  · right
    by_cases hdue : r.writes + 1 ∈ r.surroundings.interruptAt
    · refine unasked hback hidle (.writeInterrupted hneed hfail hdue) ?_ rfl ?_
      · simpa [eq_comm] using hbroken
      · rwa [Session.interrupt_of_interrupted (s := r.session.performed) hinterrupted]
    · refine unasked hback hidle (.written hneed hfail hdue) ?_ rfl h
      simpa [eq_comm] using hbroken

theorem pull {left : Nat} {asked : Option String} (hneed : r.session.demand = .advance)
    (hactivity : r.session.activity = .driving (budget + 1))
    (hends : r.session.machine.step.1.ends = false) (hleft : left ≤ budget)
    (hpauses : r.session.machine.step.1.pauses = true → left = 0)
    (hasked : ∀ name, asked = some name ↔ .input name = r.session.machine.step.1)
    (h : Descends { r with session := r.session.advance } left asked) :
    r.Descends (budget + 1) none := by
  obtain ⟨events, log, last, hdescent⟩ := h
  generalize hevent : r.session.machine.step.1 = e at *
  have hwinds := Winds.pull hneed hactivity hdescent.winds
  rw [hevent] at hwinds
  have hstops : Outcome ([e] ++ events) ([] ++ log) last.session :=
    hdescent.stops.after (by simpa using hends) (by simp)
  refine ⟨e :: events, log, last, hwinds, hstops, ?_, ?_, ?_⟩
  · have hfew := hdescent.few
    rw [List.length_cons]
    omega
  · cases events with
    | nil => simp
    | cons second rest =>
      have hgoes : e.pauses = false := by
        cases hpause : e.pauses with
        | false => rfl
        | true =>
          have hfew := hdescent.few
          rw [hpauses hpause, List.length_cons] at hfew
          omega
      have hrest := hdescent.pauses
      simpa [hgoes] using hrest
  · intro question
    simp only [hdescent.asks question, hasked, List.mem_cons, reduceCtorEq, false_or]

theorem goOn (hneed : r.session.demand = .advance)
    (hactivity : r.session.activity = .driving (budget + 1))
    (hends : r.session.machine.step.1.ends = false)
    (hpauses : r.session.machine.step.1.pauses = false)
    (h : Descends { r with session := r.session.advance } budget none) :
    r.Descends (budget + 1) none := by
  refine pull hneed hactivity hends le_rfl (by simp [hpauses]) (fun name => ?_) h
  constructor
  · simp
  · intro hinput
    rw [← hinput] at hpauses
    cases hpauses

theorem ends {log : List LogEntry} {last : Replay} (hneed : r.session.demand = .advance)
    (hactivity : r.session.activity = .driving (budget + 1))
    (hends : r.session.machine.step.1 = .finished ∨
      ∃ error, r.session.machine.step.1 = .failed error)
    (hwinds : Winds { r with session := r.session.advance } [] log last)
    (hlast : last.session.activity = .prompting ∨
      last.session.activity = .closed ∧ ∃ channel, .writeFailed channel ∈ log)
    (hbroken : .performed broken ∉ log) (hasks : log.filterMap LogEntry.question? = []) :
    r.Descends (budget + 1) none := by
  have hnot (name : String) : .input name ≠ r.session.machine.step.1 := by
    rcases hends with hends | ⟨error, hends⟩ <;> simp [hends]
  refine ⟨_, log, last, .pull hneed hactivity hwinds, ?_, by simp, by simp, by simp [hasks, hnot]⟩
  rcases hlast with hprompting | ⟨hclosed, channel, hfailed⟩
  · exact .ended hprompting List.mem_cons_self hends hbroken
  · exact .unwritten hclosed hfailed hbroken

/-! ### Breaking off -/

theorem of_breaking {effects : List Effect} (hactivity : r.session.activity = .prompting)
    (houtbox : r.session.outbox = effects ++ [broken, ready])
    (hmute : ∀ e ∈ effects, ∀ channel text, e ≠ .write channel text)
    (hidle : r.session.machine.phase = .idle) : r.Descends budget none := by
  induction effects generalizing r with
  | nil =>
    obtain ⟨log, last, hwinds, hend⟩ := Winds.of_last_line hactivity houtbox
    rcases hend with ⟨hclosed, rfl⟩ | ⟨hprompting, hmachine, hlog⟩
    · refine ⟨[], _, last, hwinds, ?_, by simp, by simp, by simp [LogEntry.question?]⟩
      exact .unwritten hclosed List.mem_cons_self (by simp)
    · refine ⟨[], log, last, hwinds, ?_, by simp, by simp, ?_⟩
      · refine .brokenOff hprompting (hmachine ▸ hidle) (by simp) ?_
        rcases hlog with rfl | rfl <;> rfl
      · rcases hlog with rfl | rfl <;> simp [LogEntry.question?]
  | cons e effects ih =>
    have hneed : r.session.demand = .perform e := by simp [Session.demand, houtbox]
    have hback : ¬ r.session.HandedBack := by simp [HandedBack, hactivity, houtbox]
    refine perform hback hneed (hmute e List.mem_cons_self) ?_
    refine ih hactivity ?_ (fun other hother => hmute other (List.mem_cons_of_mem e hother)) hidle
    simp [Session.performed, houtbox]

theorem of_breakOff {s : Session} {effects : List Effect}
    (hsession : r.session = s.breakOff effects) (houtbox : s.outbox = [])
    (hmute : ∀ e ∈ effects, ∀ channel text, e ≠ .write channel text) :
    r.Descends budget none := by
  have hleft : r.session.outbox = effects ++ [broken, ready] := by
    simp [hsession, Session.breakOff, Session.turnTo, houtbox]
  exact of_breaking (by rw [hsession]; rfl) hleft hmute (by rw [hsession]; rfl)

theorem of_used_up (hactivity : r.session.activity = .driving 0)
    (hinterrupted : r.session.interrupted = true) (houtbox : r.session.outbox = []) :
    r.Descends budget none := by
  have hneed := Session.demand_of_driving hactivity houtbox
  have hback : ¬ r.session.HandedBack := by simp [HandedBack, hactivity]
  have hbatch : ¬ r.session.BeginsBatch := by simp [BeginsBatch, hinterrupted]
  have hadvance : r.session.advance = { r.session with interrupted := false }.breakOff [] := by
    simp [Session.advance, hactivity, Session.drive, hinterrupted]
  refine silent hback hbatch (Session.event?_of_used_up hactivity) (.advances hneed) (by simp) ?_
    (of_breakOff hadvance houtbox (by simp))
  simp

/-! ### Waiting for a value -/

/-- Something is read for the variable, be it the last thing in this wait or not. -/
theorem hear {what : Reading} (hactivity : r.session.activity = .asking name)
    (houtbox : r.session.outbox = [])
    (hpasses : r.Passes [.read .input (name ++ "? ") what] next)
    (h : next.Descends budget none ∨ next.Descends budget (some name)) :
    r.Descends budget (some name) := by
  have hneed := Session.demand_of_asking hactivity houtbox
  have hback : ¬ r.session.HandedBack := by simp [HandedBack, hactivity]
  have hbatch : ¬ r.session.BeginsBatch := by simp [BeginsBatch, hneed]
  have hevent : r.session.event? = none := Session.event?_of_demand (by simp [hneed])
  rcases h with h | h
  · exact silent hback hbatch hevent hpasses (by simp) (by simp [Asks, LogEntry.question?]) h
  · exact silent hback hbatch hevent hpasses (by simp) (by simp [Asks, LogEntry.question?]) h

/-- A wait for a value goes on until something is read that ends it, and the run is broken off
then. -/
theorem of_asking (hactivity : r.session.activity = .asking name)
    (hinterrupted : r.session.interrupted = true) (houtbox : r.session.outbox = []) :
    r.Descends budget (some name) := by
  generalize hscript : r.script = script
  induction script generalizing r with
  | nil =>
    have hneed := Session.demand_of_asking hactivity houtbox
    have hreceive : r.session.receive .endOfFile = r.session.breakOff [] := by
      simp [Session.receive, hactivity]
    exact hear hactivity houtbox (.readEnd hneed hscript)
      (.inl (of_breakOff hreceive houtbox (by simp)))
  | cons item rest ih =>
    have hneed := Session.demand_of_asking hactivity houtbox
    have hidle : r.session.demand ≠ .advance := by simp [hneed]
    have hback : ¬ r.session.HandedBack := by simp [HandedBack, hactivity]
    cases item with
    | interrupt =>
      exact unasked hback hidle (.readInterrupted hneed hscript) (by simp) rfl
        (ih hactivity rfl houtbox rfl)
    | tab buffer =>
      exact unasked hback hidle (.tab hneed hscript) (by simp) rfl
        (ih hactivity hinterrupted houtbox rfl)
    | reading what =>
      refine hear hactivity houtbox (.read hneed hscript) ?_
      obtain ⟨_, hhears⟩ := Session.hears_receive hneed what
      generalize name ++ "? " = prompt at hhears
      generalize r.session.receive what = after at hhears ⊢
      cases hhears with
      | cancelled _ | abandoned _ _ => exact .inl (of_breakOff rfl houtbox (by simp))
      | @answered _ text _ _ =>
        have hremember : ∀ channel other, Effect.remember .input text ≠ .write channel other := by
          simp
        refine .inl (perform ?_ ?_ hremember (of_used_up rfl hinterrupted ?_))
        · simp [HandedBack, Session.turnTo]
        · simp [Session.demand, Session.turnTo, houtbox]
        · simp [Session.performed, Session.turnTo, houtbox]
      | refused hasking _ =>
        have hredo : Session.redo ≠ broken := by simp [Session.redo, broken, Session.tell]
        refine write ?_ hinterrupted ?_ hredo (ih ?_ hinterrupted ?_ rfl)
        · simp [HandedBack, Session.turnTo]
        · simp [Session.demand, Session.turnTo, houtbox, Session.redo]
        · simp [Session.performed, Session.turnTo, ← hasking, hactivity]
        · simp [Session.performed, Session.turnTo, houtbox]

/-! ### The rest of a batch -/

theorem of_finished (hactivity : r.session.activity = .driving (budget + 1))
    (houtbox : r.session.outbox = []) (hevent : r.session.machine.step.1 = .finished) :
    r.Descends (budget + 1) none := by
  have hneed := Session.demand_of_driving hactivity houtbox
  have hprompting : r.session.advance.activity = .prompting := by
    rw [Session.advance_eq_display hactivity hevent]
    rfl
  have hready : r.session.advance.outbox = [ready] := by
    simp [Session.advance_eq_display hactivity hevent, Session.display, Session.turnTo, houtbox]
  exact ends hneed hactivity (.inl hevent) (.done (.inl ⟨hprompting, hready⟩)) (.inl hprompting)
    (by simp) rfl

theorem of_failed {error : Error} (hactivity : r.session.activity = .driving (budget + 1))
    (houtbox : r.session.outbox = []) (hevent : r.session.machine.step.1 = .failed error) :
    r.Descends (budget + 1) none := by
  have hneed := Session.demand_of_driving hactivity houtbox
  have hprompting : r.session.advance.activity = .prompting := by
    rw [Session.advance_eq_display hactivity hevent]
    rfl
  have hreport : r.session.advance.outbox = [report error, ready] := by
    simp [Session.advance_eq_display hactivity hevent, Session.display, Session.turnTo, houtbox]
  have hline : Session.tell _ ≠ broken := Session.report_ne_broken error
  obtain ⟨log, last, hwinds, hend⟩ :=
    Winds.of_last_line (r := { r with session := r.session.advance }) hprompting hreport
  rcases hend with ⟨hclosed, rfl⟩ | ⟨hback, _, hlog⟩
  · exact ends hneed hactivity (.inr ⟨error, hevent⟩) hwinds
      (.inr ⟨hclosed, _, List.mem_cons_self⟩) (by simp) rfl
  · refine ends hneed hactivity (.inr ⟨error, hevent⟩) hwinds (.inl hback) ?_ ?_
    · rcases hlog with rfl | rfl <;> simpa [eq_comm] using hline
    · rcases hlog with rfl | rfl <;> rfl

theorem told {line : String} {e : Event} (h : r.session.Orderly)
    (hactivity : r.session.activity = .driving (budget + 1))
    (hinterrupted : r.session.interrupted = true) (houtbox : r.session.outbox = [])
    (hevent : r.session.machine.step.1 = e) (hends : e.ends = false) (hpauses : e.pauses = false)
    (hdisplay : ∀ s : Session, s.display budget e = s.turnTo (.driving budget) [Session.tell line])
    (hline : Session.tell line ≠ broken)
    (hrest : ∀ {next : Replay}, next.session.Orderly → next.session.activity = .driving budget →
      next.session.interrupted = true → next.session.outbox = [] → next.Descends budget none) :
    r.Descends (budget + 1) none := by
  have hneed := Session.demand_of_driving hactivity houtbox
  have horderly : r.session.advance.Orderly := h.drives houtbox (Session.drives_advance hneed).2
  have hadvance := Session.advance_eq_display hactivity hevent
  rw [hdisplay] at hadvance
  have hgoes : r.session.advance.activity = .driving budget := by
    rw [hadvance]
    rfl
  have hstill : r.session.advance.interrupted = true := by
    rw [hadvance]
    exact hinterrupted
  have hone : r.session.advance.outbox = [Session.tell line] := by
    simp [hadvance, Session.turnTo, houtbox]
  have hback : ¬ r.session.advance.HandedBack := by simp [HandedBack, hgoes]
  have hwrite : r.session.advance.demand = .perform (Session.tell line) := by
    simp [Session.demand, hone]
  have hnext := write (r := { r with session := r.session.advance }) hback hstill hwrite hline
    (hrest horderly.performed hgoes hstill (by simp [Session.performed, hone]))
  rw [or_self] at hnext
  exact goOn hneed hactivity (by rw [hevent, hends]) (by rw [hevent, hpauses]) hnext

/-- The events left in the batch are shown, up to one that ends the run or waits for a value. -/
theorem of_driving (h : r.session.Orderly) (hactivity : r.session.activity = .driving budget)
    (hinterrupted : r.session.interrupted = true) (houtbox : r.session.outbox = []) :
    r.Descends budget none := by
  induction budget generalizing r with
  | zero => exact of_used_up hactivity hinterrupted houtbox
  | succ budget ih =>
    have hneed := Session.demand_of_driving hactivity houtbox
    have hnext : r.session.advance.Orderly := h.drives houtbox (Session.drives_advance hneed).2
    cases hevent : r.session.machine.step.1 with
    | idle =>
      have hholds := h.holds
      rw [hactivity] at hholds
      exact absurd hevent (h.machine.invariant.step_ne_idle hholds.1)
    | finished => exact of_finished hactivity houtbox hevent
    | failed error => exact of_failed hactivity houtbox hevent
    | running | jumped _ =>
      have hadvance := Session.advance_eq_display hactivity hevent
      refine goOn hneed hactivity (by simp [hevent, Event.ends]) (by simp [hevent, Event.pauses])
        (ih hnext ?_ ?_ ?_)
      · simp [hadvance, Session.display, Session.turnTo]
      · simpa [hadvance, Session.display, Session.turnTo] using hinterrupted
      · simpa [hadvance, Session.display, Session.turnTo] using houtbox
    | print text =>
      obtain ⟨v, rfl⟩ := h.machine.print_eq hevent
      exact told h hactivity hinterrupted houtbox hevent rfl rfl (fun _ => rfl)
        (Session.tell_number_ne_broken v) ih
    | warning w =>
      exact told h hactivity hinterrupted houtbox hevent rfl rfl (fun _ => rfl)
        (Session.caution_ne_broken w) ih
    | input name =>
      have hadvance := Session.advance_eq_display hactivity hevent
      have hasking : r.session.advance.activity = .asking name := by
        rw [hadvance]
        rfl
      refine pull hneed hactivity (by simp [hevent, Event.ends]) (Nat.zero_le budget)
        (fun _ => rfl) (by simp [hevent, eq_comm]) (of_asking hasking ?_ ?_)
      · simpa [hadvance, Session.display, Session.turnTo] using hinterrupted
      · simpa [hadvance, Session.display, Session.turnTo] using houtbox

end Descends

/-! ## After an interrupt -/

variable {r : Replay}

/-- An interrupt in a run comes with its only outstanding write or while a value is waited for. -/
theorem interrupt_in_run (h : r.session.Orderly) (hrun : r.session.activity.InRun)
    (hlog : .interrupt ∈ r.step.1) :
    r.step.2.session.activity = r.session.activity ∧ r.step.2.session.interrupted = true ∧
      r.step.2.session.outbox = [] ∧
      ∀ budget, r.session.activity = .driving budget → budget < max r.session.options.cycles 1 := by
  have hpasses := r.passes_step
  generalize r.step.1 = log at hpasses hlog
  generalize r.step.2 = next at hpasses ⊢
  cases hpasses with
  | writeFails _ _ | written _ _ _ | performed _ _ | readEnd _ _ | read _ _ | tab _ _ | fileRead _
  | advances _ | rests _ => simp at hlog
  | writeInterrupted hneed _ _ =>
    obtain ⟨rest, houtbox⟩ := Session.outbox_of_demand hneed
    have hone := h.outbox_length hrun
    rw [houtbox, List.length_cons] at hone
    refine ⟨rfl, rfl, ?_, fun budget hactivity => ?_⟩
    · have hrest : rest = [] := List.length_eq_zero_iff.mp (by omega)
      simp [Session.interrupt, Session.performed, houtbox, hrest]
    · have hholds := h.holds
      rw [hactivity] at hholds
      have hroom := hholds.2.2
      rw [houtbox, List.length_cons] at hroom
      omega
  | readInterrupted hneed _ =>
    have houtbox := (Session.hears_receive hneed .endOfFile).1
    refine ⟨rfl, rfl, houtbox, fun budget hactivity => ?_⟩
    simp [Session.demand, houtbox, hactivity] at hneed

/-- After an interrupt in a run, before anything else is done the run is handed back: no further
batch is begun, so that at most the rest of the present one is shown, and nothing if the interrupt
came while a value was waited for. Values are asked for only for the present wait or for the one
that the last event shown has led to. In the end a write has failed, or the run has ended by itself,
or it is broken off, the machine is idle, and this has been said once. -/
theorem interrupt_stops_run (options : Options) (file : Option String) (script : List ScriptItem)
    (surroundings : Surroundings) (n : Nat) :
    let r := ((begin options file script surroundings).run n).2
    r.session.activity.InRun → .interrupt ∈ r.step.1 →
    ∃ k,
      let rest := r.step.2
      let events := rest.events k
      let log := (rest.run k).1
      let last := (rest.run k).2.session
      last.HandedBack ∧
      (∀ j, j < k → ¬ (rest.run j).2.session.HandedBack ∧ ¬ (rest.run j).2.session.BeginsBatch) ∧
      events.length ≤ max options.cycles 1 - 1 ∧
      (∀ name, r.session.activity = .asking name → events = []) ∧
      (∀ e ∈ events.dropLast, e.pauses = false) ∧
      (∀ question, question ∈ log.filterMap LogEntry.question? ↔
        ∃ name, Asks question name ∧
          (r.session.activity = .asking name ∨ .input name ∈ events)) ∧
      Outcome events log last := by
  intro r hrun hlog
  have horderly : r.session.Orderly := orderly options file script surroundings n
  have hoptions : r.session.options = options := by
    rw [options_run]
    cases file <;> rfl
  obtain ⟨hactivity, hinterrupted, houtbox, hroom⟩ := interrupt_in_run horderly hrun hlog
  rw [hoptions] at hroom
  have hdescends : ∃ budget current, r.step.2.Descends budget current ∧
      budget ≤ max options.cycles 1 - 1 ∧
      (∀ name, r.session.activity = .asking name → budget = 0) ∧
      ∀ name, current = some name ↔ r.session.activity = .asking name := by
    cases hs : r.session.activity with
    | prompting | naming | opening _ | closed =>
      rw [hs] at hrun
      exact absurd hrun id
    | driving budget =>
      have hless := hroom budget hs
      refine ⟨budget, none, ?_, by omega, by simp, by simp⟩
      exact .of_driving (orderly_step horderly) (hactivity.trans hs) hinterrupted houtbox
    | asking name =>
      refine ⟨0, some name, ?_, Nat.zero_le _, fun _ _ => rfl, by simp⟩
      exact .of_asking (hactivity.trans hs) hinterrupted houtbox
  obtain ⟨budget, current, ⟨events, log, last, hdescent⟩, hbudget, hasking, hcurrent⟩ := hdescends
  obtain ⟨k, hrun, hevents, hback, hbefore⟩ := hdescent.winds.exists_run
  refine ⟨k, ?_⟩
  dsimp only
  rw [hrun, hevents]
  refine ⟨hback, hbefore, hdescent.few.trans hbudget, fun name hname => ?_, hdescent.pauses,
    fun question => ?_, hdescent.stops⟩
  · have hfew := hdescent.few
    rw [hasking name hname] at hfew
    exact List.length_eq_zero_iff.mp (Nat.le_zero.mp hfew)
  · simp only [hdescent.asks question, hcurrent]

end

/-- The interrupt comes with a printed number. The batch still leads to a wait, in which a text is
refused, a number is taken and the run is broken off. -/
theorem interrupt_stops_run_after_wait :
    let script : List ScriptItem := ["10 PRINT 1", "20 INPUT X", "30 GOTO 10", "RUN", "NO", "5"].map
      fun text => .reading (.line text)
    let r := ((begin ⟨false, 2⟩ none script ⟨⟨[]⟩, [2], none⟩).run 11).2
    r.session.activity.InRun ∧ .interrupt ∈ r.step.1 ∧
      ∃ k, (r.step.2.run k).2.session.HandedBack ∧ (r.step.2.events k).length ≤ 1 := by
  intro script r
  have hactivity : ((begin ⟨false, 2⟩ none script ⟨⟨[]⟩, [2], none⟩).run 11).2.session.activity =
      .driving 1 := by cbv
  have hstep : ((begin ⟨false, 2⟩ none script ⟨⟨[]⟩, [2], none⟩).run 11).2.step.1 =
      [.performed (Session.tell "1"), .interrupt] := by cbv
  have hrun : r.session.activity.InRun := by
    rw [hactivity]
    trivial
  have hlog : .interrupt ∈ r.step.1 := by
    rw [hstep]
    exact List.mem_cons_of_mem _ List.mem_cons_self
  obtain ⟨k, hback, _, hfew, _⟩ := interrupt_stops_run ⟨false, 2⟩ none script _ 11 hrun hlog
  exact ⟨hrun, hlog, k, hback, hfew⟩

end Replay

end LineBasic
