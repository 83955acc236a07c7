import Mathlib
import LineBasic.Proofs.Replays

/-!
# Batches of events

A session drives its run in batches and looks for interrupts between them. Where none arrives, the
size of the batches does not show. A batch may end anywhere, between two warnings of one statement
as well as before a wait for input, so the comparison forgets all that counts events: two sessions
that are the same but for that stay so. The one that has used up a batch begins the next in a step
of its own that nothing is seen of.
-/
namespace LineBasic

/-! ## Forgetting the count -/

def Activity.unbatched : Activity → Activity
  | .driving _ => .driving 0
  | activity => activity

namespace Session

/-- The session without the size of its batches and what is left of the present one. -/
def unbatched (s : Session) : Session :=
  { s with
    options := { s.options with cycles := 0 }
    activity := s.activity.unbatched }

theorem demand_unbatched (s : Session) : s.unbatched.demand = s.demand := by
  have houtbox : s.unbatched.outbox = s.outbox := rfl
  have hactivity : s.unbatched.activity = s.activity.unbatched := rfl
  unfold demand
  rw [houtbox, hactivity]
  cases s.outbox with
  | cons e es => rfl
  | nil => cases s.activity <;> rfl

theorem complete?_unbatched (s : Session) (buffer : String) :
    s.unbatched.complete? buffer = s.complete? buffer := by
  unfold complete?
  cases hactivity : s.activity <;> simp [unbatched, Activity.unbatched, hactivity]

theorem unbatched_obey (s : Session) (c : Command) : (s.obey c).unbatched = s.unbatched.obey c := by
  cases c <;> rfl

theorem unbatched_takeLine (s : Session) (text : String) :
    (s.takeLine text).unbatched = s.unbatched.takeLine text := by
  unfold takeLine
  split
  · rfl
  · have hmachine : s.unbatched.machine = s.machine := rfl
    rw [hmachine]
    cases hedit : s.machine.enter text with
    | mk edit machine =>
      cases edit with
      | unchanged | malformed _ | updated _ | deleted _ => rfl
      | command c => exact unbatched_obey _ c

theorem unbatched_takeValue (s : Session) (name text : String) :
    (s.takeValue name text).unbatched = s.unbatched.takeValue name text := by
  unfold takeValue
  have hmachine : s.unbatched.machine = s.machine := rfl
  rw [hmachine]
  split <;> rfl

theorem unbatched_takeFile (s : Session) (contents : Except FileFault (List String)) :
    (s.takeFile contents).unbatched = s.unbatched.takeFile contents := by
  cases contents <;> rfl

theorem unbatched_receive (s : Session) (r : Reading) :
    (s.receive r).unbatched = s.unbatched.receive r := by
  have hactivity : s.unbatched.activity = s.activity.unbatched := rfl
  unfold receive
  rw [hactivity]
  cases s.activity with
  | prompting =>
    cases r with
    | line text => exact unbatched_takeLine s text
    | signal _ | endOfFile => rfl
  | asking name =>
    cases r with
    | line text => exact unbatched_takeValue s name text
    | signal signal => cases signal <;> rfl
    | endOfFile => rfl
  | naming => cases r <;> rfl
  | opening _ | driving _ | closed => rfl

/-- One event is shown in the same way wherever in a batch it comes. -/
theorem unbatched_drive_succ [PowerRoutine] (s : Session) (budget : Nat) :
    (s.drive (budget + 1)).unbatched = s.unbatched.drive 1 := by
  unfold drive
  have hmachine : s.unbatched.machine = s.machine := rfl
  rw [hmachine]
  cases hstep : s.machine.step with
  | mk event machine => cases event <;> rfl

theorem unbatched_drive_zero [PowerRoutine] {s : Session} {budget : Nat}
    (hcalm : s.interrupted = false) (hactivity : s.activity = .driving budget) :
    (s.drive 0).unbatched = s.unbatched := by
  unfold drive
  rw [hcalm]
  simp [unbatched, turnTo, Activity.unbatched, hactivity]

/-! ## Interrupts come from outside only -/

theorem interrupted_takeLine {s : Session} (h : s.interrupted = false) (text : String) :
    (s.takeLine text).interrupted = false := by
  unfold takeLine
  split
  · exact h
  · cases hedit : s.machine.enter text with
    | mk edit machine =>
      cases edit with
      | unchanged | malformed _ | updated _ | deleted _ => exact h
      | command c =>
        cases c with
        | RUN => rfl
        | CLEAR | HELP | LIST | LOAD | QUIT => exact h

theorem interrupted_receive {s : Session} (h : s.interrupted = false) (r : Reading) :
    (s.receive r).interrupted = false := by
  unfold receive
  split
  · exact interrupted_takeLine h _
  · exact h
  · exact h
  · exact h
  · unfold takeValue
    split <;> exact h
  · exact h
  · exact h
  · exact h

theorem interrupted_takeFile {s : Session} (h : s.interrupted = false)
    (contents : Except FileFault (List String)) : (s.takeFile contents).interrupted = false := by
  cases contents <;> exact h

theorem interrupted_advance [PowerRoutine] {s : Session} (h : s.interrupted = false) :
    s.advance.interrupted = false := by
  unfold advance
  split
  · rename_i budget _
    cases budget with
    | zero =>
      rw [drive, h]
      exact h
    | succ budget =>
      unfold drive
      cases hstep : s.machine.step with
      | mk event machine => cases event <;> exact h
  · exact h

end Session

namespace Replay

variable {r r' : Replay}

theorem interrupted_step [PowerRoutine] (h : r.session.interrupted = false)
    (hquiet : .interrupt ∉ r.step.1) : r.step.2.session.interrupted = false := by
  have hpasses := r.passes_step
  generalize r.step.1 = log at hpasses hquiet
  generalize r.step.2 = next at hpasses
  cases hpasses with
  | writeInterrupted _ _ _ | readInterrupted _ _ => simp at hquiet
  | writeFails _ _ | written _ _ _ | performed _ _ | tab _ _ | rests _ => exact h
  | readEnd _ _ | read _ _ => exact Session.interrupted_receive h _
  | fileRead _ => exact Session.interrupted_takeFile h _
  | advances _ => exact Session.interrupted_advance h

/-! ## Replays that differ in their batches -/

/-- The replay without all that counts events. -/
def unbatched (r : Replay) : Replay :=
  { r with session := r.session.unbatched }

/-- Both replays are uninterrupted and the same but for the batches. -/
structure Alike (r r' : Replay) : Prop where
  same : r.unbatched = r'.unbatched
  calm : r.session.interrupted = false

theorem Alike.symm (h : Alike r r') : Alike r' r where
  same := h.same.symm
  calm := by
    have heq : r.unbatched.session.interrupted = r'.unbatched.session.interrupted := by rw [h.same]
    exact heq.symm.trans h.calm

theorem Alike.demand_eq (h : Alike r r') : r.session.demand = r'.session.demand := by
  have heq : r.session.unbatched = r'.session.unbatched := congrArg session h.same
  rw [← Session.demand_unbatched, heq, Session.demand_unbatched]

/-- Where no time to drive is needed, a step does not look at the batches. -/
theorem step_unbatched [PowerRoutine] (h : r.session.demand ≠ .advance) :
    r.unbatched.step = (r.step.1, r.step.2.unbatched) := by
  have hdemand : r.unbatched.session.demand = r.session.demand := r.session.demand_unbatched
  have hpasses := r.passes_step
  apply step_eq_of_passes
  generalize r.step.1 = log at hpasses
  generalize r.step.2 = next at hpasses
  cases hpasses with
  | writeFails hneed hfail => exact .writeFails (hdemand.trans hneed) hfail
  | writeInterrupted hneed hfail hdue => exact .writeInterrupted (hdemand.trans hneed) hfail hdue
  | written hneed hfail hdue => exact .written (hdemand.trans hneed) hfail hdue
  | performed hneed hnot => exact .performed (hdemand.trans hneed) hnot
  | readEnd hneed hscript =>
    simp only [unbatched, Session.unbatched_receive]
    exact .readEnd (r := r.unbatched) (hdemand.trans hneed) hscript
  | read hneed hscript =>
    simp only [unbatched, Session.unbatched_receive]
    exact .read (r := r.unbatched) (hdemand.trans hneed) hscript
  | readInterrupted hneed hscript => exact .readInterrupted (hdemand.trans hneed) hscript
  | tab hneed hscript =>
    rw [← Session.complete?_unbatched]
    exact .tab (hdemand.trans hneed) hscript
  | fileRead hneed =>
    simp only [unbatched, Session.unbatched_takeFile]
    exact .fileRead (r := r.unbatched) (hdemand.trans hneed)
  | advances hneed => exact absurd hneed h
  | rests hneed => exact .rests (hdemand.trans hneed)

theorem driving_of_demand (h : r.session.demand = .advance) :
    ∃ budget, r.session.activity = .driving budget := by
  unfold Session.demand at h
  split at h
  · cases h
  · cases hactivity : r.session.activity with
    | driving budget => exact ⟨budget, rfl⟩
    | prompting | naming | opening _ | asking _ | closed => simp [hactivity] at h

section

variable [PowerRoutine]

/-- The replay after one event of its run, without batches. -/
def pulled (r : Replay) : Replay :=
  { r with session := r.session.unbatched.drive 1 }

theorem step_of_driving_succ {budget : Nat} (h : r.session.demand = .advance)
    (hactivity : r.session.activity = .driving (budget + 1)) :
    r.step.1 = [] ∧ r.step.2.unbatched = r.pulled := by
  rw [step_eq_of_passes (.advances h)]
  refine ⟨rfl, ?_⟩
  simp only [unbatched, pulled, Session.advance, hactivity, Session.unbatched_drive_succ]

theorem step_of_driving_zero (h : r.session.demand = .advance)
    (hactivity : r.session.activity = .driving 0) (hcalm : r.session.interrupted = false) :
    r.step.1 = [] ∧ r.step.2.unbatched = r.unbatched ∧
      r.step.2.session.activity = .driving (max r.session.options.cycles 1) := by
  rw [step_eq_of_passes (.advances h)]
  refine ⟨rfl, ?_, ?_⟩
  · simp only [unbatched, Session.advance, hactivity, Session.unbatched_drive_zero hcalm hactivity]
  · simp only [Session.advance, hactivity, Session.drive, hcalm]
    rfl

/-- Any replay that drives its run comes to the next event, in one step or two. -/
theorem exists_run_pulled (h : r.session.demand = .advance)
    (hcalm : r.session.interrupted = false) :
    ∃ k, (r.run k).1 = [] ∧ (r.run k).2.unbatched = r.pulled := by
  obtain ⟨budget, hactivity⟩ := driving_of_demand h
  cases budget with
  | succ budget =>
    refine ⟨1, ?_⟩
    rw [run_one]
    exact step_of_driving_succ h hactivity
  | zero =>
    obtain ⟨hlog, hsame, hbatch⟩ := step_of_driving_zero h hactivity hcalm
    obtain ⟨budget, hbudget⟩ : ∃ budget, max r.session.options.cycles 1 = budget + 1 :=
      ⟨max r.session.options.cycles 1 - 1, by omega⟩
    rw [hbudget] at hbatch
    have hdemand : r.step.2.session.demand = .advance := by
      have heq : r.step.2.session.unbatched = r.session.unbatched := congrArg session hsame
      rw [← Session.demand_unbatched, heq, Session.demand_unbatched, h]
    obtain ⟨hlog', hpulled⟩ := step_of_driving_succ hdemand hbatch
    refine ⟨2, ?_, ?_⟩
    · rw [run_succ, run_one, hlog, hlog']
      rfl
    · rw [run_succ, run_one, hpulled]
      have heq : r.step.2.pulled = r.step.2.unbatched.pulled := rfl
      rw [heq, hsame]
      rfl

end

namespace Alike

section

variable [PowerRoutine]

/-- A step of one replay is matched by steps of the other, as long as no interrupt arrives. -/
theorem step (h : Alike r r') : ∃ k, (r'.run k).1 = r.step.1 ∧
    (.interrupt ∉ r.step.1 → Alike r.step.2 (r'.run k).2) := by
  suffices hmatch : ∃ k, (r'.run k).1 = r.step.1 ∧ r.step.2.unbatched = (r'.run k).2.unbatched by
    obtain ⟨k, hlog, hsame⟩ := hmatch
    exact ⟨k, hlog, fun hquiet => ⟨hsame, interrupted_step h.calm hquiet⟩⟩
  by_cases hdemand : r.session.demand = .advance
  · obtain ⟨budget, hactivity⟩ := driving_of_demand hdemand
    cases budget with
    | zero =>
      obtain ⟨hlog, hsame, _⟩ := step_of_driving_zero hdemand hactivity h.calm
      exact ⟨0, hlog.symm, hsame.trans h.same⟩
    | succ budget =>
      obtain ⟨hlog, hpulled⟩ := step_of_driving_succ hdemand hactivity
      obtain ⟨k, hlog', hpulled'⟩ := exists_run_pulled (h.demand_eq ▸ hdemand) h.symm.calm
      have heq : r.unbatched.pulled = r'.unbatched.pulled := congrArg pulled h.same
      exact ⟨k, hlog'.trans hlog.symm, (hpulled.trans heq).trans hpulled'.symm⟩
  · have hstep := step_unbatched hdemand
    rw [h.same, step_unbatched (h.demand_eq ▸ hdemand)] at hstep
    obtain ⟨hlog, hsame⟩ := Prod.mk.inj hstep
    exact ⟨1, by rw [run_one, hlog], by rw [run_one, hsame]⟩

theorem run (h : Alike r r') (n : Nat) (hquiet : .interrupt ∉ (r.run n).1) :
    ∃ k, (r'.run k).1 = (r.run n).1 ∧ Alike (r.run n).2 (r'.run k).2 := by
  induction n generalizing r r' with
  | zero => exact ⟨0, rfl, h⟩
  | succ n ih =>
    rw [run_succ] at hquiet ⊢
    rw [List.mem_append, not_or] at hquiet
    obtain ⟨j, hlog, hafter⟩ := h.step
    obtain ⟨k, hlog', hlast⟩ := ih (hafter hquiet.1) hquiet.2
    refine ⟨j + k, ?_, ?_⟩
    · rw [run_add, hlog, hlog']
    · rw [run_add]
      exact hlast

theorem quiet (h : Alike r r') (hquiet : ∀ n, .interrupt ∉ (r.run n).1) (n : Nat) :
    .interrupt ∉ (r'.run n).1 := by
  induction n generalizing r r' with
  | zero => simp [Replay.run]
  | succ n ih =>
    obtain ⟨k, hlog, hafter⟩ := h.symm.step
    have hstep : .interrupt ∉ r'.step.1 := hlog ▸ hquiet k
    have hrest : ∀ j, .interrupt ∉ ((r.run k).2.run j).1 := by
      intro j hmem
      apply hquiet (k + j)
      rw [run_add]
      exact List.mem_append_right _ hmem
    rw [run_succ, List.mem_append, not_or]
    exact ⟨hstep, ih (hafter hstep).symm hrest⟩

end

theorem script_eq (h : Alike r r') : r.script = r'.script := by
  have heq : r.unbatched.script = r'.unbatched.script := by rw [h.same]
  exact heq

theorem isOver_eq (h : Alike r r') : r.isOver = r'.isOver := by
  unfold isOver
  rw [h.demand_eq]

theorem ends [PowerRoutine] (h : Alike r r') (hquiet : ∀ n, .interrupt ∉ (r.run n).1)
    {log : List LogEntry} {last : Replay} (hends : r.Ends log last) :
    ∃ last', r'.Ends log last' ∧ last'.script = last.script := by
  obtain ⟨n, hrun, hover⟩ := hends
  obtain ⟨k, hlog, hlast⟩ := h.run n (hquiet n)
  rw [hrun] at hlog hlast
  refine ⟨(r'.run k).2, ⟨k, Prod.ext hlog rfl, ?_⟩, hlast.script_eq.symm⟩
  exact hlast.isOver_eq.symm.trans hover

end Alike

theorem alike_begin (tree : Bool) (c₁ c₂ : Nat) (file : Option String) (script : List ScriptItem)
    (surroundings : Surroundings) :
    Alike (begin ⟨tree, c₁⟩ file script surroundings)
      (begin ⟨tree, c₂⟩ file script surroundings) := by
  cases file <;> exact ⟨rfl, rfl⟩

/-- As long as no interrupt arrives, sessions with batches of any two sizes log the same. One ends
just when the other does, and then with the same items of the script left. -/
theorem cycles_unobservable [PowerRoutine] (tree : Bool) (c₁ c₂ : Nat) (file : Option String)
    (script : List ScriptItem) (surroundings : Surroundings)
    (hquiet : ∀ n, .interrupt ∉ ((begin ⟨tree, c₁⟩ file script surroundings).run n).1) :
    let r₁ := begin ⟨tree, c₁⟩ file script surroundings
    let r₂ := begin ⟨tree, c₂⟩ file script surroundings
    (∀ log, (∃ n, (r₁.run n).1 = log) ↔ ∃ n, (r₂.run n).1 = log) ∧
    ((∃ log last, r₁.Ends log last) ↔ ∃ log last, r₂.Ends log last) ∧
    ∀ log₁ log₂ last₁ last₂, r₁.Ends log₁ last₁ → r₂.Ends log₂ last₂ →
      log₁ = log₂ ∧ last₁.script.length = last₂.script.length := by
  intro r₁ r₂
  have h : Alike r₁ r₂ := alike_begin tree c₁ c₂ file script surroundings
  have hquiet' := h.quiet hquiet
  refine ⟨fun log => ⟨?_, ?_⟩, ⟨?_, ?_⟩, ?_⟩
  · rintro ⟨n, rfl⟩
    obtain ⟨k, hlog, _⟩ := h.run n (hquiet n)
    exact ⟨k, hlog⟩
  · rintro ⟨n, rfl⟩
    obtain ⟨k, hlog, _⟩ := h.symm.run n (hquiet' n)
    exact ⟨k, hlog⟩
  · rintro ⟨log, last, hends⟩
    obtain ⟨last', hends', _⟩ := h.ends hquiet hends
    exact ⟨log, last', hends'⟩
  · rintro ⟨log, last, hends⟩
    obtain ⟨last', hends', _⟩ := h.symm.ends hquiet' hends
    exact ⟨log, last', hends'⟩
  · intro log₁ log₂ last₁ last₂ hends₁ hends₂
    obtain ⟨last, hends, hscript⟩ := h.ends hquiet hends₁
    obtain ⟨rfl, rfl⟩ := hends.unique hends₂
    exact ⟨rfl, by rw [hscript]⟩

/-- Nothing interrupts a replay where neither the user nor the surroundings do. -/
theorem quiet_of_no_interrupts [PowerRoutine] (hscript : .interrupt ∉ r.script)
    (hwrites : r.surroundings.interruptAt = []) (n : Nat) : .interrupt ∉ (r.run n).1 := by
  induction n generalizing r with
  | zero => simp [run]
  | succ n ih =>
    have hpasses := r.passes_step
    rw [run_succ, List.mem_append, not_or]
    generalize r.step.1 = log at hpasses
    generalize r.step.2 = next at hpasses
    cases hpasses with
    | writeInterrupted _ _ hdue => simp [hwrites] at hdue
    | readInterrupted _ hitem => simp [hitem] at hscript
    | writeFails _ _ | written _ _ _ | performed _ _ | readEnd _ _ =>
      exact ⟨by simp, ih hscript hwrites⟩
    | read _ hitem | tab _ hitem =>
      rw [hitem, List.mem_cons, not_or] at hscript
      exact ⟨by simp, ih hscript.2 hwrites⟩
    | fileRead _ | advances _ | rests _ => exact ⟨by simp, ih hscript hwrites⟩

/-- A run that waits for a value and then fails, driven by single events and in one batch. -/
theorem cycles_unobservable_of_failing_run :
    let script : List ScriptItem :=
      ["10 INPUT X", "20 PRINT X / 0", "RUN", "5"].map fun text => .reading (.line text)
    let r₁ := begin ⟨false, 0⟩ none script ⟨⟨[]⟩, [], none⟩
    let r₂ := begin ⟨false, 5000⟩ none script ⟨⟨[]⟩, [], none⟩
    (∀ n, .interrupt ∉ (r₁.run n).1) ∧ (r₁.run 32).2.isOver = true ∧
      ∃ last, r₂.Ends (r₁.run 32).1 last := by
  intro script r₁ r₂
  have hquiet : ∀ n, .interrupt ∉ (r₁.run n).1 :=
    quiet_of_no_interrupts (r := r₁) (by simp [r₁, script, begin]) rfl
  have hover : (r₁.run 32).2.isOver = true := by cbv
  have hends := ends_of_isOver hover
  obtain ⟨_, hiff, hsame⟩ := cycles_unobservable false 0 5000 none script ⟨⟨[]⟩, [], none⟩ hquiet
  obtain ⟨log, last, hends'⟩ := hiff.mp ⟨_, _, hends⟩
  have hlog : (r₁.run 32).1 = log := (hsame _ _ _ _ hends hends').1
  exact ⟨hquiet, hover, last, hlog ▸ hends'⟩

end Replay

end LineBasic
