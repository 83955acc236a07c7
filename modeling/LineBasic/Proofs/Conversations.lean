import LineBasic.Proofs.FreshRuns
import LineBasic.Proofs.MachineInvariant

/-!
# Conversations

All that a session can come to when its demand is met, one rule for each way through it, and what a
session holds at each of its activities. The machine of a session is one that operations lead to, so
that all that is known of such machines holds of it. Where no run is being driven, the machine has
nothing left of one: a session leaves a run only when the machine has handed over its last event, or
after giving up the run. So all events that are shown in a run are its own.
-/
namespace LineBasic

/-! ## Machines that operations lead to -/

section

variable [PowerRoutine]

namespace Machine

variable {m : Machine}

theorem performAll_concat (m : Machine) (ops : List Operation) (op : Operation) :
    (m.performAll (ops ++ [op])).2 = ((m.performAll ops).2.perform op).2 := by
  induction ops generalizing m with
  | nil => rfl
  | cons first ops ih => exact ih (m.perform first).2

/-- Some operations on a new machine lead to this one. -/
def Reached (m : Machine) : Prop :=
  ∃ ops, (new.performAll ops).2 = m

namespace Reached

theorem new : Machine.new.Reached :=
  ⟨[], rfl⟩

theorem perform (h : m.Reached) (op : Operation) : (m.perform op).2.Reached := by
  obtain ⟨ops, rfl⟩ := h
  exact ⟨ops ++ [op], performAll_concat _ ops op⟩

theorem invariant (h : m.Reached) : m.Invariant := by
  obtain ⟨ops, rfl⟩ := h
  exact invariant_performAll ops

end Reached

/-! ## Machines with nothing left to tell -/

/-- No run is active, and no event waits in the queue. -/
structure Quiet (m : Machine) : Prop where
  phase : m.phase = .idle ∨ m.phase = .finished
  queue : m.queue = []

end Machine

/-- The event is the last of its run, or says that there is none. -/
def Event.ends : Event → Bool
  | .finished => true
  | .failed _ => true
  | .idle => true
  | _ => false

/-- A group that ends a run is a single event, or its last event says so. -/
theorem Reference.Yields.quiet_of_ends {r r' : Reference} {first : Event} {rest : List Event}
    (h : r.Yields (first :: rest) r') (hends : first.ends = true) :
    rest = [] ∧ (r'.phase = .idle ∨ r'.phase = .finished) := by
  generalize hes : first :: rest = es at h
  cases h with
  | idle hphase => exact ⟨(List.cons.inj hes).2, .inl hphase⟩
  | finished hphase => exact ⟨(List.cons.inj hes).2, .inr hphase⟩
  | ends _ _ => exact ⟨(List.cons.inj hes).2, .inr rfl⟩
  | awaits _ =>
    rw [(List.cons.inj hes).1] at hends
    cases hends
  | @executes _ _ _ ws _ _ hdoes =>
    cases ws with
    | cons w ws =>
      rw [(List.cons.inj hes).1] at hends
      cases hends
    | nil =>
      obtain ⟨rfl, hrest⟩ := List.cons.inj hes
      refine ⟨hrest, .inr ?_⟩
      cases hdoes with
      | stop | assignFails _ | printFails _ | branchFails _ => rfl
      | remark _ | assign _ | print _ | input _ | goto _ | branchTaken _ _ | branchPassed _ _ =>
        cases hends

end

namespace Machine

variable {m : Machine}

/-- With the last event of a run, nothing of it is left. -/
theorem Invariant.quiet_step [PowerRoutine] (h : m.Invariant) (hends : m.step.1.ends = true) :
    m.step.2.Quiet := by
  cases hqueue : m.queue with
  | nil =>
    obtain ⟨hgroup, href⟩ := step_of_queue_nil hqueue
    have hyields := m.reference.yields_group
    rw [hgroup, ← href] at hyields
    obtain ⟨hrest, hphase⟩ := hyields.quiet_of_ends hends
    exact ⟨hphase, hrest⟩
  | cons e rest =>
    obtain ⟨ws, last, hws, hlast⟩ := h.queue (by simp [hqueue])
    rw [step_of_queue_cons hqueue] at hends ⊢
    rw [hqueue] at hws
    cases ws with
    | cons w ws =>
      rw [(List.cons.inj hws).1] at hends
      cases hends
    | nil =>
      obtain ⟨rfl, rfl⟩ := List.cons.inj hws
      rcases hlast.state with ⟨hstate, _⟩ | ⟨_, rfl | ⟨_, rfl⟩ | ⟨_, rfl⟩⟩
      · exact ⟨.inr (Phase.state_eq_finished_iff.mp hstate), rfl⟩
      · cases hends
      · cases hends
      · cases hends

theorem step_phase_ne_idle [PowerRoutine] (h : m.phase ≠ .idle) : m.step.2.phase ≠ .idle := by
  cases hqueue : m.queue with
  | nil =>
    obtain ⟨_, href⟩ := step_of_queue_nil hqueue
    have hne := m.reference.yields_group.phase_ne_idle h
    rw [← href] at hne
    exact hne
  | cons e rest =>
    rw [step_of_queue_cons hqueue]
    exact h

theorem start_phase_ne_idle (m : Machine) : m.start.phase ≠ .idle :=
  Reference.start_phase_ne_idle m.listing

theorem input_phase_ne_idle {s : String} (h : (m.input s).1 = true) :
    (m.input s).2.phase ≠ .idle := by
  have hin : m.reference.input s = some (m.input s).2.reference := by
    rw [reference_input, if_pos h]
  exact Reference.input_phase_ne_idle hin

/-- In a run there is always something to tell, if only that it has ended. -/
theorem Invariant.step_ne_idle [PowerRoutine] (h : m.Invariant) (hphase : m.phase ≠ .idle) :
    m.step.1 ≠ .idle := by
  have hnot {ws : List Warning} {last : Event} (hlast : last ≠ .idle) :
      .idle ∉ ws.map Event.warning ++ [last] := by simp [hlast.symm]
  intro hidle
  cases hqueue : m.queue with
  | nil =>
    obtain ⟨hgroup, _⟩ := step_of_queue_nil hqueue
    obtain ⟨ws, last, hshape, hlast⟩ := m.reference.yields_group.shape hphase
    have hne : last ≠ .idle := by
      rintro rfl
      exact hlast
    apply hnot hne
    rw [← hshape, hgroup, hidle]
    exact List.mem_cons_self
  | cons e rest =>
    obtain ⟨ws, last, hshape, hlast⟩ := h.queue (by simp [hqueue])
    have hne : last ≠ .idle := by
      rintro rfl
      exact hlast
    rw [step_of_queue_cons hqueue] at hidle
    apply hnot hne
    rw [← hshape, hqueue, ← hidle]
    exact List.mem_cons_self

/-- The machine runs or has run, so that no step finds it at rest. -/
structure Active (m : Machine) : Prop where
  invariant : m.Invariant
  phase : m.phase ≠ .idle

namespace Active

theorem start (m : Machine) : m.start.Active :=
  ⟨.start m, m.start_phase_ne_idle⟩

theorem step [PowerRoutine] (h : m.Active) : m.step.2.Active :=
  ⟨h.invariant.step, step_phase_ne_idle h.phase⟩

theorem input (h : m.Active) (s : String) : (m.input s).2.Active := by
  refine ⟨h.invariant.input s, ?_⟩
  cases htaken : (m.input s).1 with
  | true => exact input_phase_ne_idle htaken
  | false =>
    rw [input_of_refused htaken]
    exact h.phase

end Active

end Machine

def Line.isEdit : Line → Bool
  | .numbered _ _ => true
  | .delete _ => true
  | _ => false

/-! ## What comes of a demand -/

namespace Session

variable {s s' : Session}

/-- All that reading a line can come to, one rule for each way through it. -/
inductive Hears (s : Session) : Channel → String → Reading → Session → Prop
  | tooLong {text} : s.activity = .prompting → maxLineBytes < text.utf8ByteSize →
      Hears s .basic "" (.line text)
        (s.turnTo .prompting [report { kind := .lineBufferOverflow }])
  | edited {text} : s.activity = .prompting → text.utf8ByteSize ≤ maxLineBytes →
      (Line.ofText text).isEdit = true →
      Hears s .basic "" (.line text)
        ({ s with machine := (s.machine.enter text).2 }.turnTo .prompting
          (.remember .basic text :: outlined s.options (s.machine.enter text).2.listing))
  | malformed {text e} : s.activity = .prompting → text.utf8ByteSize ≤ maxLineBytes →
      Line.ofText text = .invalid e →
      Hears s .basic "" (.line text) (s.turnTo .prompting [report e])
  | blank {text} : s.activity = .prompting → text.utf8ByteSize ≤ maxLineBytes →
      Line.ofText text = .blank → Hears s .basic "" (.line text) s
  | commanded {text c} : s.activity = .prompting → text.utf8ByteSize ≤ maxLineBytes →
      Line.ofText text = .command c →
      Hears s .basic "" (.line text) ((s.turnTo .prompting [.remember .basic text]).obey c)
  | left {what} : s.activity = .prompting → (∀ text, what ≠ .line text) →
      Hears s .basic "" what (s.turnTo .closed [])
  | named {name} : s.activity = .naming →
      Hears s .load "FILE? " (.line name) (s.takeFileName name)
  | unnamed {what} : s.activity = .naming → (∀ name, what ≠ .line name) →
      Hears s .load "FILE? " what (s.turnTo .prompting [ready])
  | answered {name text} : s.activity = .asking name → (s.machine.input text).1 = true →
      Hears s .input (name ++ "? ") (.line text)
        ({ s with machine := (s.machine.input text).2 }.turnTo (.driving 0)
          [.remember .input text])
  | refused {name text} : s.activity = .asking name → (s.machine.input text).1 = false →
      Hears s .input (name ++ "? ") (.line text) (s.turnTo (.asking name) [redo])
  | cancelled {name} : s.activity = .asking name →
      Hears s .input (name ++ "? ") (.signal .interrupt)
        (s.breakOff [.setBuffer .input "", .cancel .input])
  | abandoned {name what} : s.activity = .asking name → (∀ text, what ≠ .line text) →
      Hears s .input (name ++ "? ") what (s.breakOff [])

theorem hears_takeLine (h : s.activity = .prompting) (text : String) :
    s.Hears .basic "" (.line text) (s.takeLine text) := by
  unfold takeLine
  split
  · exact .tooLong h ‹_›
  · rename_i hsize
    have hsize' : text.utf8ByteSize ≤ maxLineBytes := Nat.not_lt.mp hsize
    have hedited := Hears.edited h hsize'
    unfold Machine.enter Program.enter at hedited ⊢
    cases hline : Line.ofText text with
    | numbered _ _ | delete _ =>
      rw [hline] at hedited
      exact hedited rfl
    | command c => exact .commanded h hsize' hline
    | blank => exact .blank h hsize' hline
    | invalid e => exact .malformed h hsize' hline

theorem hears_takeValue {name : String} (h : s.activity = .asking name) (text : String) :
    s.Hears .input (name ++ "? ") (.line text) (s.takeValue name text) := by
  unfold takeValue
  split <;> rename_i machine hinput
  · have htaken : (s.machine.input text).1 = true := by rw [hinput]
    have hanswered := Hears.answered h htaken
    rwa [hinput] at hanswered
  · have htaken : (s.machine.input text).1 = false := by rw [hinput]
    have hsame : machine = s.machine := by
      have hrefused := Machine.input_of_refused htaken
      rwa [hinput] at hrefused
    rw [hsame]
    exact .refused h htaken

theorem hears_receive {channel : Channel} {prompt : String}
    (h : s.demand = .readLine channel prompt) (what : Reading) :
    s.outbox = [] ∧ s.Hears channel prompt what (s.receive what) := by
  unfold demand at h
  split at h
  · cases h
  · rename_i houtbox
    refine ⟨houtbox, ?_⟩
    cases hactivity : s.activity with
    | prompting =>
      simp only [hactivity, Demand.readLine.injEq] at h
      obtain ⟨rfl, rfl⟩ := h
      simp only [receive, hactivity]
      cases what with
      | line text => exact hears_takeLine hactivity text
      | signal _ | endOfFile => exact .left hactivity (by simp)
    | naming =>
      simp only [hactivity, Demand.readLine.injEq] at h
      obtain ⟨rfl, rfl⟩ := h
      simp only [receive, hactivity]
      cases what with
      | line name => exact .named hactivity
      | signal _ | endOfFile => exact .unnamed hactivity (by simp)
    | asking name =>
      simp only [hactivity, Demand.readLine.injEq] at h
      obtain ⟨rfl, rfl⟩ := h
      simp only [receive, hactivity]
      cases what with
      | line text => exact hears_takeValue hactivity text
      | endOfFile => exact .abandoned hactivity (by simp)
      | signal signal =>
        cases signal with
        | interrupt => exact .cancelled hactivity
        | breakSignal | continueSignal | suspend | quit => exact .abandoned hactivity (by simp)
    | opening _ | driving _ | closed => simp [hactivity] at h

inductive Drives [PowerRoutine] (s : Session) : Session → Prop
  | breaks : s.activity = .driving 0 → s.interrupted = true →
      Drives s ({ s with interrupted := false }.breakOff [])
  | begins : s.activity = .driving 0 → s.interrupted = false →
      Drives s (s.turnTo (.driving (max s.options.cycles 1)) [])
  | pulls {budget} : s.activity = .driving (budget + 1) →
      Drives s ({ s with machine := s.machine.step.2 }.display budget s.machine.step.1)

theorem drives_advance [PowerRoutine] (h : s.demand = .advance) :
    s.outbox = [] ∧ s.Drives s.advance := by
  unfold demand at h
  split at h
  · cases h
  · rename_i houtbox
    refine ⟨houtbox, ?_⟩
    cases hactivity : s.activity with
    | prompting | naming | opening _ | asking _ | closed => simp [hactivity] at h
    | driving budget =>
      simp only [advance, hactivity]
      cases budget with
      | succ budget => exact .pulls hactivity
      | zero =>
        rw [drive]
        split
        · exact .breaks hactivity ‹_›
        · rename_i hcalm
          exact .begins hactivity (Bool.not_eq_true _ ▸ hcalm)

theorem opening_of_demand {name : String} (h : s.demand = .readFile name) :
    s.outbox = [] ∧ s.activity = .opening name := by
  unfold demand at h
  split at h
  · cases h
  · rename_i houtbox
    refine ⟨houtbox, ?_⟩
    cases hactivity : s.activity with
    | opening _ =>
      simp only [hactivity, Demand.readFile.injEq] at h
      rw [h]
    | prompting | naming | driving _ | asking _ | closed => simp [hactivity] at h

theorem outbox_of_demand {e : Effect} (h : s.demand = .perform e) :
    ∃ rest, s.outbox = e :: rest := by
  unfold demand at h
  cases houtbox : s.outbox with
  | nil =>
    rw [houtbox] at h
    cases hactivity : s.activity <;> simp [hactivity] at h
  | cons first rest =>
    simp only [houtbox, Demand.perform.injEq] at h
    exact ⟨rest, by rw [h]⟩

theorem Hears.options_eq {channel : Channel} {prompt : String} {what : Reading}
    (h : s.Hears channel prompt what s') : s'.options = s.options := by
  cases h with
  | @commanded _ c _ _ _ => cases c <;> rfl
  | tooLong _ _ | edited _ _ _ | malformed _ _ _ | blank _ _ _ | left _ _ | named _ | unnamed _ _
  | answered _ _ | refused _ _ | cancelled _ | abandoned _ _ => rfl

variable [PowerRoutine]

theorem Drives.options_eq (h : s.Drives s') : s'.options = s.options := by
  cases h with
  | breaks _ _ | begins _ _ => rfl
  | pulls _ => cases s.machine.step.1 <;> rfl

/-! ## What a session holds -/

/-- What the session holds while it is at the activity. In a run at most one effect is outstanding,
and each event but the last of a batch leaves room for the next. -/
def Holds (s : Session) : Activity → Prop
  | .prompting => s.machine.Quiet
  | .naming => s.machine.Quiet
  | .opening _ => s.machine.Quiet ∧ s.outbox = []
  | .driving budget => s.machine.phase ≠ .idle ∧ s.outbox.length ≤ 1 ∧
      budget + s.outbox.length ≤ max s.options.cycles 1
  | .asking _ => s.outbox.length ≤ 1
  | .closed => True

structure Orderly (s : Session) : Prop where
  machine : s.machine.Reached
  holds : s.Holds s.activity

namespace Orderly

theorem begin (options : Options) (file : Option String) : (begin options file).Orderly := by
  cases file with
  | none => exact ⟨.new, ⟨.inl rfl, rfl⟩⟩
  | some name => exact ⟨.new, ⟨.inl rfl, rfl⟩, rfl⟩

theorem performed (h : s.Orderly) : s.performed.Orderly := by
  refine ⟨h.machine, ?_⟩
  have hholds := h.holds
  have hactivity : s.performed.activity = s.activity := rfl
  have hlength : s.performed.outbox.length ≤ s.outbox.length := by
    simp [Session.performed]
  rw [hactivity]
  cases hs : s.activity with
  | prompting | naming | closed =>
    rw [hs] at hholds
    exact hholds
  | opening name =>
    rw [hs] at hholds
    exact ⟨hholds.1, by simp [Session.performed, hholds.2]⟩
  | driving budget =>
    rw [hs] at hholds
    obtain ⟨hphase, hone, hroom⟩ := hholds
    have hsame : s.performed.options = s.options := rfl
    refine ⟨hphase, hlength.trans hone, ?_⟩
    rw [hsame]
    omega
  | asking name =>
    rw [hs] at hholds
    exact hlength.trans hholds

theorem close (h : s.Orderly) : s.close.Orderly :=
  ⟨h.machine, trivial⟩

theorem interrupt (h : s.Orderly) : s.interrupt.Orderly :=
  ⟨h.machine, h.holds⟩

theorem breakOff (h : s.Orderly) (effects : List Effect) : (s.breakOff effects).Orderly :=
  ⟨h.machine.perform .interrupt, .inl rfl, rfl⟩

theorem quiet_of_prompting (h : s.Orderly) (hactivity : s.activity = .prompting) :
    s.machine.Quiet := by
  have hholds := h.holds
  rw [hactivity] at hholds
  exact hholds

theorem obey (hmachine : s.machine.Reached) (hquiet : s.machine.Quiet) (hone : s.outbox.length ≤ 1)
    (c : Command) : (s.obey c).Orderly := by
  cases c with
  | QUIT => exact ⟨hmachine, trivial⟩
  | LOAD | LIST | HELP => exact ⟨hmachine, hquiet⟩
  | CLEAR => exact ⟨hmachine.perform .clear, hquiet.phase, hquiet.queue⟩
  | RUN =>
    refine ⟨hmachine.perform .start, s.machine.start_phase_ne_idle, ?_, ?_⟩
    · simpa [Session.obey, turnTo] using hone
    · simp only [Session.obey, turnTo, List.append_nil]
      omega

theorem hears (h : s.Orderly) (houtbox : s.outbox = []) {channel : Channel} {prompt : String}
    {what : Reading} (hhears : s.Hears channel prompt what s') : s'.Orderly := by
  cases hhears with
  | tooLong hactivity _ | malformed hactivity _ _ =>
    exact ⟨h.machine, h.quiet_of_prompting hactivity⟩
  | edited hactivity _ _ =>
    have hquiet := h.quiet_of_prompting hactivity
    exact ⟨h.machine.perform (.enter _), hquiet.phase, hquiet.queue⟩
  | blank _ _ _ => exact h
  | commanded hactivity _ _ =>
    have hquiet := h.quiet_of_prompting hactivity
    exact obey (s := s.turnTo .prompting _) h.machine hquiet (by simp [turnTo, houtbox]) _
  | left _ _ => exact ⟨h.machine, trivial⟩
  | named hactivity =>
    have hholds := h.holds
    rw [hactivity] at hholds
    exact ⟨h.machine, hholds, by simp [takeFileName, turnTo, houtbox]⟩
  | unnamed hactivity _ =>
    have hholds := h.holds
    rw [hactivity] at hholds
    exact ⟨h.machine, hholds⟩
  | answered _ htaken =>
    refine ⟨h.machine.perform (.input _), Machine.input_phase_ne_idle htaken, ?_, ?_⟩
    · simp [turnTo, houtbox]
    · simp [turnTo, houtbox]
  | refused _ _ => exact ⟨h.machine, by simp [Holds, turnTo, houtbox]⟩
  | cancelled _ | abandoned _ _ => exact h.breakOff _

theorem takeFile (h : s.Orderly) {name : String} (hactivity : s.activity = .opening name)
    (contents : Except FileFault (List String)) : (s.takeFile contents).Orderly := by
  have hholds := h.holds
  rw [hactivity] at hholds
  cases contents with
  | error fault => exact ⟨h.machine, hholds.1⟩
  | ok lines => exact ⟨h.machine.perform (.load lines), hholds.1.phase, hholds.1.queue⟩

theorem drives (h : s.Orderly) (houtbox : s.outbox = []) (hdrives : s.Drives s') : s'.Orderly := by
  have hholds := h.holds
  cases hdrives with
  | breaks _ _ => exact breakOff (s := { s with interrupted := false }) ⟨h.machine, h.holds⟩ []
  | begins hactivity _ =>
    rw [hactivity] at hholds
    exact ⟨h.machine, hholds.1, by simp [turnTo, houtbox], by simp [turnTo, houtbox]⟩
  | @pulls budget hactivity =>
    rw [hactivity] at hholds
    obtain ⟨hphase, _, hroom⟩ := hholds
    have hmachine := h.machine.perform .step
    have hphase' := Machine.step_phase_ne_idle hphase
    have hbudget : budget + 1 ≤ max s.options.cycles 1 := by
      rw [houtbox] at hroom
      exact hroom
    have hquiet := h.machine.invariant.quiet_step
    cases hevent : s.machine.step.1 with
    | print _ | warning _ | running | jumped _ =>
      refine ⟨hmachine, hphase', ?_, ?_⟩
      · simp [display, turnTo, houtbox]
      · simp only [display, turnTo, houtbox, List.nil_append, List.length_cons, List.length_nil]
        omega
    | input _ => exact ⟨hmachine, by simp [Holds, display, turnTo, houtbox]⟩
    | failed _ | finished | idle => exact ⟨hmachine, hquiet (by rw [hevent]; rfl)⟩

end Orderly

end Session

variable [PowerRoutine]

namespace Replay

variable {r : Replay}

theorem options_step (r : Replay) : r.step.2.session.options = r.session.options := by
  have hpasses := r.passes_step
  generalize r.step.1 = log at hpasses
  generalize r.step.2 = next at hpasses ⊢
  cases hpasses with
  | writeFails _ _ | writeInterrupted _ _ _ | written _ _ _ | performed _ _ | readInterrupted _ _
  | tab _ _ | rests _ => rfl
  | readEnd hneed _ | read hneed _ => exact (Session.hears_receive hneed _).2.options_eq
  | @fileRead name _ => cases hread : r.surroundings.folder.read name <;> rfl
  | advances hneed => exact (Session.drives_advance hneed).2.options_eq

theorem options_run (r : Replay) (n : Nat) : (r.run n).2.session.options = r.session.options := by
  induction n generalizing r with
  | zero => rfl
  | succ n ih => exact (ih r.step.2).trans r.options_step

theorem orderly_step (h : r.session.Orderly) : r.step.2.session.Orderly := by
  have hpasses := r.passes_step
  generalize r.step.1 = log at hpasses
  generalize r.step.2 = next at hpasses ⊢
  cases hpasses with
  | writeFails _ _ => exact h.close
  | writeInterrupted _ _ _ => exact h.performed.interrupt
  | written _ _ _ | performed _ _ => exact h.performed
  | readEnd hneed _ | read hneed _ =>
    obtain ⟨houtbox, hhears⟩ := Session.hears_receive hneed _
    exact h.hears houtbox hhears
  | readInterrupted _ _ => exact h.interrupt
  | tab _ _ | rests _ => exact h
  | fileRead hneed => exact h.takeFile (Session.opening_of_demand hneed).2 _
  | advances hneed =>
    obtain ⟨houtbox, hdrives⟩ := Session.drives_advance hneed
    exact h.drives houtbox hdrives

theorem orderly_run (h : r.session.Orderly) (n : Nat) : (r.run n).2.session.Orderly := by
  induction n generalizing r with
  | zero => exact h
  | succ n ih => exact ih (orderly_step h)

theorem orderly (options : Options) (file : Option String) (script : List ScriptItem)
    (surroundings : Surroundings) (n : Nat) :
    ((begin options file script surroundings).run n).2.session.Orderly :=
  orderly_run (.begin options file) n

end Replay

end LineBasic
