import LineBasic.Proofs.Conversations

/-!
# Where the events of a run come from

A session pulls events from its machine only while it is in a run. Whenever it is, the run was
started by the last line that was read at the prompt, and all that happened to the machine since
then are the steps and the typed values of this run. So the events that are pulled are those of the
run that was asked for. Outside of runs the registers of the machine are at rest.
-/
namespace LineBasic

def Activity.InRun : Activity → Prop
  | .driving _ => True
  | .asking _ => True
  | _ => False

/-- The registers hold no run: the machine is idle or finished, with nothing to execute, to wait for
or to hand over. -/
structure Registers.AtRest (q : Registers) : Prop where
  state : q.state = .idle ∨ q.state = .finished
  pc : q.pc = none
  pending : q.pending = none
  queue : q.queue = []

theorem Machine.Quiet.atRest {m : Machine} (h : m.Quiet) : m.registers.AtRest := by
  obtain ⟨hphase | hphase, hqueue⟩ := h
  · exact ⟨.inl (by simp [registers, Phase.state, hphase]), by simp [registers, Phase.pc?, hphase],
      by simp [registers, Phase.pending?, hphase], hqueue⟩
  · exact ⟨.inr (by simp [registers, Phase.state, hphase]), by simp [registers, Phase.pc?, hphase],
      by simp [registers, Phase.pending?, hphase], hqueue⟩

namespace Session

variable {s s' : Session}

section

variable [PowerRoutine]

/-- The event that the session pulls from its machine next. -/
def event? (s : Session) : Option Event :=
  match s.demand, s.activity with
  | .advance, .driving (_ + 1) => some s.machine.step.1
  | _, _ => none

theorem event?_of_demand (h : s.demand ≠ .advance) : s.event? = none := by
  unfold event?
  split
  · exact absurd ‹_› h
  · rfl

theorem event?_of_not_inRun (h : ¬ s.activity.InRun) : s.event? = none := by
  unfold event?
  split
  · rename_i hactivity
    rw [hactivity] at h
    exact absurd trivial h
  · rfl

theorem event?_of_driving {budget : Nat} (hdemand : s.demand = .advance)
    (hactivity : s.activity = .driving (budget + 1)) : s.event? = some s.machine.step.1 := by
  simp only [event?, hdemand, hactivity]

theorem event?_of_used_up (hactivity : s.activity = .driving 0) : s.event? = none := by
  unfold event?
  split
  · rename_i hbudget
    rw [hactivity] at hbudget
    cases hbudget
  · rfl

theorem Orderly.quiet (h : s.Orderly) (hrun : ¬ s.activity.InRun) (hclosed : s.activity ≠ .closed) :
    s.machine.Quiet := by
  have hholds := h.holds
  cases hactivity : s.activity with
  | prompting | naming =>
    rw [hactivity] at hholds
    exact hholds
  | opening name =>
    rw [hactivity] at hholds
    exact hholds.1
  | driving _ | asking _ =>
    rw [hactivity] at hrun
    exact absurd trivial hrun
  | closed => exact absurd hactivity hclosed

/-- In a run, what is read goes to the machine as a typed value, or the run is given up. -/
theorem Hears.calls_of_inRun {channel : Channel} {prompt : String} {what : Reading}
    (h : s.Hears channel prompt what s') (hrun : s.activity.InRun) (hrun' : s'.activity.InRun) :
    ∃ calls, s'.machine = (s.machine.answers calls).2 ∧
      (s.machine.answers calls).1.filterMap Sign.event? = [] := by
  cases h with
  | tooLong hactivity _ | edited hactivity _ _ | malformed hactivity _ _ | blank hactivity _ _
  | commanded hactivity _ _ | left hactivity _ | named hactivity | unnamed hactivity _ =>
    rw [hactivity] at hrun
    exact absurd hrun id
  | @answered _ text _ htaken =>
    refine ⟨[.input text], rfl, ?_⟩
    simp [Machine.answers, Machine.answer, htaken, Sign.event?]
  | refused _ _ => exact ⟨[], rfl, rfl⟩
  | cancelled _ | abandoned _ _ => exact absurd hrun' id

end

theorem Hears.start_of_not_inRun {channel : Channel} {prompt : String} {what : Reading}
    (h : s.Hears channel prompt what s') (hrun : ¬ s.activity.InRun) (hrun' : s'.activity.InRun) :
    channel = .basic ∧ prompt = "" ∧ s'.machine = s.machine.start ∧
      ∃ text, what = .line text ∧ text.utf8ByteSize ≤ maxLineBytes ∧
        Line.ofText text = .command .RUN := by
  cases h with
  | tooLong _ _ | edited _ _ _ | malformed _ _ _ | left _ _ | named _ | unnamed _ _ | cancelled _
  | abandoned _ _ => exact absurd hrun' id
  | blank _ _ _ => exact absurd hrun' hrun
  | answered hactivity _ | refused hactivity _ =>
    rw [hactivity] at hrun
    exact absurd trivial hrun
  | @commanded text c _ hsize hline =>
    cases c with
    | RUN => exact ⟨rfl, rfl, rfl, text, rfl, hsize, hline⟩
    | LOAD | LIST | CLEAR | HELP | QUIT => exact absurd hrun' id

end Session

namespace Replay

variable {r : Replay}

section

variable [PowerRoutine]

/-- The events that are pulled from the machine in at most `n` steps. -/
def events : Nat → Replay → List Event
  | 0, _ => []
  | n + 1, r => r.session.event?.toList ++ events n r.step.2

theorem events_concat (n : Nat) (r : Replay) :
    r.events (n + 1) = r.events n ++ (r.run n).2.session.event?.toList := by
  induction n generalizing r with
  | zero => simp [events, run]
  | succ n ih =>
    rw [events, ih, events, run_succ, List.append_assoc]

/-- Within a run, a step does to the machine what calls do, and pulls the events that they show. -/
theorem calls_of_inRun (hrun : r.session.activity.InRun)
    (hrun' : r.step.2.session.activity.InRun) :
    ∃ calls, r.step.2.session.machine = (r.session.machine.answers calls).2 ∧
      r.session.event?.toList = (r.session.machine.answers calls).1.filterMap Sign.event? := by
  have hpasses := r.passes_step
  generalize r.step.1 = log at hpasses
  generalize r.step.2 = next at hpasses hrun' ⊢
  cases hpasses with
  | writeFails _ _ => exact absurd hrun' id
  | writeInterrupted hneed _ _ | written hneed _ _ | performed hneed _ | readInterrupted hneed _
  | tab hneed _ | rests hneed =>
    refine ⟨[], rfl, ?_⟩
    rw [Session.event?_of_demand (by simp [hneed])]
    rfl
  | readEnd hneed _ | read hneed _ =>
    obtain ⟨_, hhears⟩ := Session.hears_receive hneed _
    obtain ⟨calls, hmachine, hevents⟩ := hhears.calls_of_inRun hrun hrun'
    refine ⟨calls, hmachine, ?_⟩
    rw [hevents, Session.event?_of_demand (by simp [hneed])]
    rfl
  | fileRead hneed =>
    rw [(Session.opening_of_demand hneed).2] at hrun
    exact absurd hrun id
  | advances hneed =>
    obtain ⟨_, hdrives⟩ := Session.drives_advance hneed
    generalize r.session.advance = after at hdrives hrun' ⊢
    cases hdrives with
    | breaks _ _ => exact absurd hrun' id
    | begins hactivity _ =>
      refine ⟨[], rfl, ?_⟩
      rw [Session.event?_of_used_up hactivity]
      rfl
    | pulls hactivity =>
      refine ⟨[.step], ?_, ?_⟩
      · cases r.session.machine.step.1 <;> rfl
      · rw [Session.event?_of_driving hneed hactivity]
        rfl

/-- Only a command to run brings a session into a run, and it starts the machine. -/
theorem start_of_not_inRun (hrun : ¬ r.session.activity.InRun)
    (hrun' : r.step.2.session.activity.InRun) :
    r.ReadsRun ∧ r.step.2.session.machine = r.session.machine.start := by
  have hpasses := r.passes_step
  generalize r.step.1 = log at hpasses
  generalize r.step.2 = next at hpasses hrun' ⊢
  cases hpasses with
  | writeFails _ _ => exact absurd hrun' id
  | writeInterrupted _ _ _ | written _ _ _ | performed _ _ | readInterrupted _ _ | tab _ _
  | rests _ => exact absurd hrun' hrun
  | readEnd hneed _ =>
    obtain ⟨_, hhears⟩ := Session.hears_receive hneed .endOfFile
    obtain ⟨_, _, _, text, hline, _⟩ := hhears.start_of_not_inRun hrun hrun'
    cases hline
  | read hneed hscript =>
    obtain ⟨_, hhears⟩ := Session.hears_receive hneed _
    obtain ⟨rfl, rfl, hmachine, text, rfl, hsize, hline⟩ := hhears.start_of_not_inRun hrun hrun'
    exact ⟨⟨hneed, text, _, hscript, hsize, hline⟩, hmachine⟩
  | @fileRead name _ =>
    cases hread : r.surroundings.folder.read name <;> rw [hread] at hrun' <;> exact absurd hrun' id
  | advances hneed =>
    obtain ⟨_, hdrives⟩ := Session.drives_advance hneed
    generalize r.session.advance = after at hdrives
    cases hdrives with
    | breaks hactivity _ | begins hactivity _ | pulls hactivity =>
      rw [hactivity] at hrun
      exact absurd trivial hrun

/-- A session in a run has been in it since the last command to run, and its machine has seen the
steps and values of this run only. -/
theorem run_origin (h : ¬ r.session.activity.InRun) (n : Nat)
    (hrun : (r.run n).2.session.activity.InRun) :
    ∃ i k calls, n = i + 1 + k ∧ (r.run i).2.ReadsRun ∧
      (∀ j, j ≤ k → (r.run (i + 1 + j)).2.session.activity.InRun) ∧
      (r.run n).2.session.machine = ((r.run i).2.session.machine.start.answers calls).2 ∧
      (r.run (i + 1)).2.events k =
        ((r.run i).2.session.machine.start.answers calls).1.filterMap Sign.event? := by
  induction n with
  | zero => exact absurd hrun h
  | succ n ih =>
    rw [run_concat] at hrun
    by_cases hbefore : (r.run n).2.session.activity.InRun
    · obtain ⟨i, k, calls, rfl, hreads, hsince, hmachine, hevents⟩ := ih hbefore
      obtain ⟨more, hmachine', hevents'⟩ := calls_of_inRun hbefore hrun
      refine ⟨i, k + 1, calls ++ more, by omega, hreads, fun j hj => ?_, ?_, ?_⟩
      · by_cases hlast : j = k + 1
        · rw [hlast, ← Nat.add_assoc, run_concat]
          exact hrun
        · exact hsince j (by omega)
      · rw [run_concat, hmachine', hmachine, Machine.answers_append]
      · rw [events_concat, hevents, ← run_add_snd, hevents', hmachine, Machine.answers_append,
          List.filterMap_append]
    · obtain ⟨hreads, hmachine⟩ := start_of_not_inRun hbefore hrun
      refine ⟨n, 0, [], rfl, hreads, fun j hj => ?_, ?_, rfl⟩
      · rw [Nat.le_zero.mp hj, Nat.add_zero, run_concat]
        exact hrun
      · rw [run_concat]
        exact hmachine

end

theorem not_inRun_begin (options : Options) (file : Option String) (script : List ScriptItem)
    (surroundings : Surroundings) :
    ¬ (begin options file script surroundings).session.activity.InRun := by
  cases file <;> exact id

/-- Whenever a line is read at the prompt, and whenever a session is in no run and not over, the
registers of its machine are at rest and no event is pulled. When it is in a run, the last line read
at the prompt was the command to run, and the events pulled since then are those of the run that was
started there. -/
theorem quiet_between_runs [PowerRoutine] (options : Options) (file : Option String)
    (script : List ScriptItem) (surroundings : Surroundings) (n : Nat) :
    let r := begin options file script surroundings
    let s := (r.run n).2.session
    (∀ prompt, s.demand = .readLine .basic prompt → s.machine.registers.AtRest) ∧
    (¬ s.activity.InRun → s.activity ≠ .closed → s.machine.registers.AtRest ∧ s.event? = none) ∧
    (s.activity.InRun → ∃ i k calls, n = i + 1 + k ∧ (r.run i).2.ReadsRun ∧
      (∀ j, j ≤ k → (r.run (i + 1 + j)).2.session.activity.InRun) ∧
      s.machine = ((r.run i).2.session.machine.start.answers calls).2 ∧
      (r.run (i + 1)).2.events k =
        ((r.run i).2.session.machine.start.answers calls).1.filterMap Sign.event?) := by
  intro r s
  have horderly : s.Orderly := orderly options file script surroundings n
  refine ⟨fun prompt hdemand => ?_, fun hrun hclosed => ?_, ?_⟩
  · obtain ⟨_, hhears⟩ := Session.hears_receive hdemand .endOfFile
    have hactivity : s.activity = .prompting := by
      generalize s.receive .endOfFile = after at hhears
      cases hhears with
      | left hactivity _ => exact hactivity
    exact (horderly.quiet_of_prompting hactivity).atRest
  · exact ⟨(horderly.quiet hrun hclosed).atRest, Session.event?_of_not_inRun hrun⟩
  · exact run_origin (not_inRun_begin options file script surroundings) n

end Replay

end LineBasic
