import Mathlib
import LineBasic.Proofs.Registers
import LineBasic.Proofs.Replays

/-!
# Runs forget what was before them

A start sets everything that a run looks at, so a run depends on the program alone and not on how
earlier runs were left. In a session a run also meets the rest of the script, the writes that fail
and the interrupts to come. Two sessions that agree on these log the same from the command to run
until they are ready again, whatever they did before and whether or not they show outlines: they go
through the run step by step in parallel, and nothing that differs between them is looked at before
they are ready.
-/
namespace LineBasic

/-! ## Starting a machine -/

theorem Machine.start_eq_of_listing_eq {m m' : Machine} (h : m.listing = m'.listing) :
    m.start = m'.start := by
  rw [start, start, h]

/-- The registers too are all set, though one by one. -/
theorem Registers.start_eq_of_listing_eq {r r' : Registers} (h : r.listing = r'.listing) :
    r.start = r'.start := by
  rw [start, start, h]

/-! ## Sessions with and without outlines -/

namespace Session

variable {s : Session}

def withTree (s : Session) (tree : Bool) : Session :=
  { s with options := { s.options with tree := tree } }

theorem demand_withTree (s : Session) (tree : Bool) : (s.withTree tree).demand = s.demand := rfl

theorem withTree_takeValue (s : Session) (tree : Bool) (name text : String) :
    (s.withTree tree).takeValue name text = (s.takeValue name text).withTree tree := by
  unfold takeValue
  have hmachine : (s.withTree tree).machine = s.machine := rfl
  rw [hmachine]
  split <;> rfl

theorem withTree_receive {name : String} (h : s.activity = .asking name) (tree : Bool)
    (what : Reading) : (s.withTree tree).receive what = (s.receive what).withTree tree := by
  have hactivity : (s.withTree tree).activity = .asking name := h
  unfold receive
  rw [h, hactivity]
  cases what with
  | line text => exact s.withTree_takeValue tree name text
  | signal signal => cases signal <;> rfl
  | endOfFile => rfl

theorem withTree_advance [PowerRoutine] (s : Session) (tree : Bool) :
    (s.withTree tree).advance = s.advance.withTree tree := by
  have hactivity : (s.withTree tree).activity = s.activity := rfl
  unfold advance
  rw [hactivity]
  cases s.activity with
  | driving budget =>
    have hmachine : (s.withTree tree).machine = s.machine := rfl
    cases budget with
    | zero =>
      have hinterrupted : (s.withTree tree).interrupted = s.interrupted := rfl
      simp only [drive, hinterrupted]
      split <;> rfl
    | succ budget =>
      simp only [drive, hmachine]
      cases s.machine.step with
      | mk event machine => cases event <;> rfl
  | prompting | naming | opening _ | asking _ | closed => rfl

/-! ## Until a session is ready -/

/-- Since a run was started, the session has not said again that it is ready. -/
def Unready (s : Session) : Prop :=
  match s.activity with
  | .driving _ => True
  | .asking _ => True
  | .prompting => ready ∈ s.outbox
  | .closed => True
  | .naming => False
  | .opening _ => False

namespace Unready

theorem of_driving {budget : Nat} (h : s.activity = .driving budget) : s.Unready := by
  simp [Unready, h]

theorem of_asking {name : String} (h : s.activity = .asking name) : s.Unready := by
  simp [Unready, h]

theorem of_closed (h : s.activity = .closed) : s.Unready := by
  simp [Unready, h]

theorem of_ready_mem (h : s.activity = .prompting) (hready : ready ∈ s.outbox) : s.Unready := by
  simpa [Unready, h] using hready

/-- Before it is ready, a session reads nothing but values. -/
theorem asking_of_demand (h : s.Unready) {channel : Channel} {prompt : String}
    (hdemand : s.demand = .readLine channel prompt) : ∃ name, s.activity = .asking name := by
  unfold demand at hdemand
  split at hdemand
  · cases hdemand
  · rename_i houtbox
    cases hactivity : s.activity with
    | asking name => exact ⟨name, rfl⟩
    | prompting => simp [Unready, hactivity, houtbox] at h
    | naming => simp [Unready, hactivity] at h
    | opening _ | driving _ | closed => simp [hactivity] at hdemand

theorem demand_ne_readFile (h : s.Unready) (name : String) : s.demand ≠ .readFile name := by
  intro hdemand
  unfold demand at hdemand
  split at hdemand
  · cases hdemand
  · cases hactivity : s.activity with
    | opening _ => simp [Unready, hactivity] at h
    | prompting | naming | driving _ | asking _ | closed => simp [hactivity] at hdemand

theorem performed (h : s.Unready) {e : Effect} (hdemand : s.demand = .perform e) (he : e ≠ ready) :
    s.performed.Unready := by
  have hactivity : s.performed.activity = s.activity := rfl
  cases hs : s.activity with
  | driving _ => exact of_driving (hactivity.trans hs)
  | asking _ => exact of_asking (hactivity.trans hs)
  | closed => exact of_closed (hactivity.trans hs)
  | naming | opening _ => simp [Unready, hs] at h
  | prompting =>
    have hready : ready ∈ s.outbox := by simpa [Unready, hs] using h
    apply of_ready_mem (hactivity.trans hs)
    unfold demand at hdemand
    cases houtbox : s.outbox with
    | nil => simp [houtbox] at hready
    | cons first rest =>
      simp only [houtbox, Demand.perform.injEq] at hdemand
      rw [houtbox, List.mem_cons] at hready
      rcases hready with hready | hready
      · exact absurd (hdemand.symm.trans hready.symm) he
      · simpa [Session.performed, houtbox] using hready

theorem breakOff (s : Session) (effects : List Effect) : (s.breakOff effects).Unready :=
  of_ready_mem rfl (by simp [Session.breakOff, turnTo])

theorem receive {name : String} (h : s.activity = .asking name) (what : Reading) :
    (s.receive what).Unready := by
  unfold Session.receive
  rw [h]
  cases what with
  | line text =>
    dsimp only
    unfold takeValue
    split
    · exact of_driving rfl
    · exact of_asking rfl
  | signal signal => cases signal <;> exact breakOff _ _
  | endOfFile => exact breakOff _ _

theorem display (s : Session) (budget : Nat) (event : Event) :
    (s.display budget event).Unready := by
  cases event with
  | print _ | warning _ | running | jumped _ => exact of_driving rfl
  | input _ => exact of_asking rfl
  | failed _ | finished | idle => exact of_ready_mem rfl (by simp [Session.display, turnTo])

theorem advance [PowerRoutine] (h : s.Unready) : s.advance.Unready := by
  unfold Session.advance
  split
  · rename_i budget _
    cases budget with
    | zero =>
      rw [drive]
      split
      · exact breakOff _ _
      · exact of_driving rfl
    | succ budget => exact display _ _ _
  · exact h

end Unready

end Session

namespace Replay

variable {r r' : Replay}

/-! ## Replays side by side -/

/-- The `k`-th write from now on fails. -/
def FailsAhead (r : Replay) (k : Nat) : Prop :=
  r.surroundings.failAt = some (r.writes + k)

/-- An interrupt arrives after the `k`-th write from now on. -/
def InterruptedAhead (r : Replay) (k : Nat) : Prop :=
  r.writes + k ∈ r.surroundings.interruptAt

/-- The same is ahead of both replays: what is typed, which writes fail, and after which of them an
interrupt arrives. -/
structure SameAhead (r r' : Replay) : Prop where
  script : r.script = r'.script
  fails : ∀ k, 0 < k → (r.FailsAhead k ↔ r'.FailsAhead k)
  interrupted : ∀ k, 0 < k → (r.InterruptedAhead k ↔ r'.InterruptedAhead k)

/-- Both replays stand at the same point of the same run; one of them may show outlines. -/
structure Abreast (r r' : Replay) : Prop extends SameAhead r r' where
  session : ∃ tree, r'.session = r.session.withTree tree

namespace SameAhead

theorem goOn (h : SameAhead r r') (s s' : Session) :
    SameAhead { r with session := s } { r' with session := s' } :=
  ⟨h.script, h.fails, h.interrupted⟩

theorem read (h : SameAhead r r') (s s' : Session) (script : List ScriptItem) :
    SameAhead { r with session := s, script := script }
      { r' with session := s', script := script } :=
  ⟨rfl, h.fails, h.interrupted⟩

/-- One write later the writes to come have moved up by one in both. -/
theorem written (h : SameAhead r r') (s s' : Session) :
    SameAhead { r with session := s, writes := r.writes + 1 }
      { r' with session := s', writes := r'.writes + 1 } where
  script := h.script
  fails k _ := by
    have hk := h.fails (1 + k) (by omega)
    simpa only [FailsAhead, Nat.add_assoc] using hk
  interrupted k _ := by
    have hk := h.interrupted (1 + k) (by omega)
    simpa only [InterruptedAhead, Nat.add_assoc] using hk

end SameAhead

namespace Abreast

theorem step [PowerRoutine] (h : Abreast r r') (hunready : r.session.Unready) :
    r'.step.1 = r.step.1 ∧ Abreast r.step.2 r'.step.2 := by
  suffices hmatch : ∃ next', r'.Passes r.step.1 next' ∧ Abreast r.step.2 next' by
    obtain ⟨next', hpasses, habreast⟩ := hmatch
    rw [step_eq_of_passes hpasses]
    exact ⟨rfl, habreast⟩
  obtain ⟨hahead, tree, hsession⟩ := h
  have hdemand : r'.session.demand = r.session.demand := by rw [hsession, Session.demand_withTree]
  have hpasses := r.passes_step
  generalize r.step.1 = log at hpasses ⊢
  generalize r.step.2 = next at hpasses ⊢
  cases hpasses with
  | writeFails hneed hfail =>
    refine ⟨_, .writeFails (hdemand.trans hneed) ((hahead.fails 1 (by omega)).mp hfail), ?_⟩
    exact ⟨hahead.written _ _, tree, by rw [hsession]; rfl⟩
  | writeInterrupted hneed hfail hdue =>
    refine ⟨_, .writeInterrupted (hdemand.trans hneed)
      (fun hfail' => hfail ((hahead.fails 1 (by omega)).mpr hfail'))
      ((hahead.interrupted 1 (by omega)).mp hdue), ?_⟩
    exact ⟨hahead.written _ _, tree, by rw [hsession]; rfl⟩
  | written hneed hfail hdue =>
    refine ⟨_, .written (hdemand.trans hneed)
      (fun hfail' => hfail ((hahead.fails 1 (by omega)).mpr hfail'))
      (fun hdue' => hdue ((hahead.interrupted 1 (by omega)).mpr hdue')), ?_⟩
    exact ⟨hahead.written _ _, tree, by rw [hsession]; rfl⟩
  | performed hneed hnot =>
    refine ⟨_, .performed (hdemand.trans hneed) hnot, ?_⟩
    exact ⟨hahead.goOn _ _, tree, by rw [hsession]; rfl⟩
  | readEnd hneed hscript =>
    obtain ⟨name, hactivity⟩ := hunready.asking_of_demand hneed
    refine ⟨_, .readEnd (hdemand.trans hneed) (hahead.script ▸ hscript), ?_⟩
    refine ⟨hahead.goOn _ _, tree, ?_⟩
    rw [hsession, Session.withTree_receive hactivity]
  | read hneed hscript =>
    obtain ⟨name, hactivity⟩ := hunready.asking_of_demand hneed
    refine ⟨_, .read (hdemand.trans hneed) (hahead.script ▸ hscript), ?_⟩
    refine ⟨hahead.read _ _ _, tree, ?_⟩
    rw [hsession, Session.withTree_receive hactivity]
  | readInterrupted hneed hscript =>
    refine ⟨_, .readInterrupted (hdemand.trans hneed) (hahead.script ▸ hscript), ?_⟩
    exact ⟨hahead.read _ _ _, tree, by rw [hsession]; rfl⟩
  | @tab channel prompt buffer rest hneed hscript =>
    have hcomplete : r'.session.complete? buffer = r.session.complete? buffer := by
      rw [hsession]
      rfl
    refine ⟨{ r' with script := rest }, ?_, hahead.read _ _ _, tree, hsession⟩
    rw [← hcomplete]
    exact .tab (hdemand.trans hneed) (hahead.script ▸ hscript)
  | fileRead hneed => exact absurd hneed (hunready.demand_ne_readFile _)
  | advances hneed =>
    refine ⟨_, .advances (hdemand.trans hneed), ?_⟩
    refine ⟨hahead.goOn _ _, tree, ?_⟩
    rw [hsession, Session.withTree_advance]
  | rests hneed => exact ⟨r', .rests (hdemand.trans hneed), hahead, tree, hsession⟩

end Abreast

theorem unready_step [PowerRoutine] (h : r.session.Unready)
    (hlog : .performed Session.ready ∉ r.step.1) : r.step.2.session.Unready := by
  have hpasses := r.passes_step
  generalize r.step.1 = log at hpasses hlog
  generalize r.step.2 = next at hpasses ⊢
  cases hpasses with
  | writeFails _ _ => exact .of_closed rfl
  | writeInterrupted hneed _ _ | written hneed _ _ | performed hneed _ =>
    apply h.performed hneed
    intro hready
    apply hlog
    rw [← hready]
    exact List.mem_cons_self
  | readEnd hneed _ | read hneed _ =>
    obtain ⟨name, hactivity⟩ := h.asking_of_demand hneed
    exact .receive hactivity _
  | readInterrupted _ _ | tab _ _ | rests _ => exact h
  | fileRead hneed => exact absurd hneed (h.demand_ne_readFile _)
  | advances _ => exact h.advance

/-- The log up to where the session is next ready. -/
def untilReady : List LogEntry → List LogEntry
  | [] => []
  | entry :: log => if entry = .performed Session.ready then [entry] else entry :: untilReady log

theorem untilReady_append (log log' : List LogEntry) :
    untilReady (log ++ log') =
      if .performed Session.ready ∈ log then untilReady log else log ++ untilReady log' := by
  induction log with
  | nil => simp
  | cons entry log ih =>
    by_cases hentry : entry = .performed Session.ready
    · simp [untilReady, hentry]
    · simp only [List.cons_append, untilReady, hentry, if_false, ih, List.mem_cons, Ne.symm hentry,
        false_or]
      split <;> rfl

theorem Abreast.untilReady_run [PowerRoutine] (h : Abreast r r') (hunready : r.session.Unready)
    (n : Nat) : untilReady (r.run n).1 = untilReady (r'.run n).1 := by
  induction n generalizing r r' with
  | zero => rfl
  | succ n ih =>
    obtain ⟨hlog, hnext⟩ := h.step hunready
    rw [run_succ, run_succ, untilReady_append, untilReady_append, hlog]
    split
    · rfl
    · rename_i hready
      rw [ih hnext (unready_step hunready hready)]

/-! ## From a command to run -/

/-- The session is at its prompt, and the next line it reads is the command to run the program. -/
def ReadsRun (r : Replay) : Prop :=
  r.session.demand = .readLine .basic "" ∧ ∃ text rest, r.script = .reading (.line text) :: rest ∧
    text.utf8ByteSize ≤ Session.maxLineBytes ∧ Line.ofText text = .command .RUN

theorem prompting_of_demand (h : r.session.demand = .readLine .basic "") :
    r.session.activity = .prompting ∧ r.session.outbox = [] := by
  unfold Session.demand at h
  split at h
  · cases h
  · rename_i houtbox
    cases hactivity : r.session.activity <;> simp [hactivity] at h
    exact ⟨rfl, houtbox⟩

/-- The command starts the machine and forgets older interrupts. -/
theorem step_of_readsRun [PowerRoutine] {text : String} {rest : List ScriptItem}
    (hdemand : r.session.demand = .readLine .basic "")
    (hscript : r.script = .reading (.line text) :: rest)
    (hsize : text.utf8ByteSize ≤ Session.maxLineBytes) (hline : Line.ofText text = .command .RUN) :
    r.step = ([.read .basic "" (.line text)],
      { r with
        session := ⟨r.session.options, r.session.machine.start, false, .driving 0,
          [.remember .basic text]⟩
        script := rest }) := by
  obtain ⟨hactivity, houtbox⟩ := prompting_of_demand hdemand
  have henter : r.session.machine.enter text = (.command .RUN, r.session.machine) := by
    simp [Machine.enter, Program.enter, hline]
  have htake : r.session.takeLine text = ⟨r.session.options, r.session.machine.start, false,
      .driving 0, [.remember .basic text]⟩ := by
    simp [Session.takeLine, henter, Nat.not_lt.mpr hsize, Session.obey, Session.turnTo, houtbox]
  have hreceive : r.session.receive (.line text) = r.session.takeLine text := by
    simp only [Session.receive, hactivity]
  rw [step_eq_of_passes (.read hdemand hscript), hreceive, htake]

theorem abreast_of_readsRun [PowerRoutine] (hrun : r.ReadsRun) (hrun' : r'.ReadsRun)
    (hahead : SameAhead r r') (hlisting : r.session.machine.listing = r'.session.machine.listing)
    (hcycles : r.session.options.cycles = r'.session.options.cycles) :
    r.step.1 = r'.step.1 ∧ Abreast r.step.2 r'.step.2 ∧ r.step.2.session.Unready := by
  obtain ⟨hdemand, text, rest, hscript, hsize, hline⟩ := hrun
  have hstep := step_of_readsRun hdemand hscript hsize hline
  have hstep' := step_of_readsRun hrun'.1 (hahead.script ▸ hscript) hsize hline
  have hstart := Machine.start_eq_of_listing_eq hlisting
  rw [hstep, hstep']
  refine ⟨rfl, ⟨hahead.read _ _ _, r'.session.options.tree, ?_⟩, .of_driving rfl⟩
  simp [Session.withTree, hstart, hcycles]

end Replay

/-- A machine goes on after a start as any other with the same listing does, and so do its
registers. What a session logs from a command to run until it is next ready is the same in any two
sessions with the same program, the same size of batches and the same ahead of them. -/
theorem runs_forget_history [PowerRoutine] :
    (∀ m m' : Machine, m.listing = m'.listing →
      ∀ ops, m.start.performAll ops = m'.start.performAll ops) ∧
    (∀ q q' : Registers, q.listing = q'.listing →
      ∀ ops, q.start.performAll ops = q'.start.performAll ops) ∧
    ∀ r r' : Replay, r.ReadsRun → r'.ReadsRun → r.SameAhead r' →
      r.session.machine.listing = r'.session.machine.listing →
      r.session.options.cycles = r'.session.options.cycles →
      ∀ n, Replay.untilReady (r.run n).1 = Replay.untilReady (r'.run n).1 := by
  refine ⟨fun m m' hlisting ops => ?_, fun q q' hlisting ops => ?_,
    fun r r' hrun hrun' hahead hlisting hcycles n => ?_⟩
  · rw [Machine.start_eq_of_listing_eq hlisting]
  · rw [Registers.start_eq_of_listing_eq hlisting]
  · obtain ⟨hlog, habreast, hunready⟩ :=
      Replay.abreast_of_readsRun hrun hrun' hahead hlisting hcycles
    cases n with
    | zero => rfl
    | succ n =>
      rw [Replay.run_succ, Replay.run_succ, Replay.untilReady_append, Replay.untilReady_append,
        hlog, habreast.untilReady_run hunready]

/-- A run after one that was given up, in a session with outlines and an old interrupt, and the
first run of another session. -/
theorem runs_forget_abandoned_run :
    let script : List ScriptItem :=
      [.reading (.line "10 INPUT X"), .reading (.line "RUN"), .reading (.signal .quit), .interrupt,
        .reading (.line "RUN"), .reading (.line "5")]
    let script' : List ScriptItem :=
      ["10 INPUT X", "RUN", "5"].map fun text => .reading (.line text)
    let r := ((Replay.begin ⟨true, 1⟩ none script ⟨⟨[]⟩, [5], none⟩).run 12).2
    let r' := ((Replay.begin ⟨false, 1⟩ none script' ⟨⟨[]⟩, [2], none⟩).run 3).2
    r.ReadsRun ∧ r'.ReadsRun ∧ r.SameAhead r' ∧ r.session.interrupted = true ∧
      ∀ n, Replay.untilReady (r.run n).1 = Replay.untilReady (r'.run n).1 := by
  intro script script' r r'
  have hview : (r.session.demand, r.script, r.surroundings, r.writes, r.session.interrupted) =
      (.readLine .basic "", [.reading (.line "RUN"), .reading (.line "5")], ⟨⟨[]⟩, [5], none⟩, 4,
        true) := by
    dsimp only [r]
    cbv
  have hview' : (r'.session.demand, r'.script, r'.surroundings, r'.writes) =
      (.readLine .basic "", [.reading (.line "RUN"), .reading (.line "5")], ⟨⟨[]⟩, [2], none⟩,
        1) := by
    dsimp only [r']
    cbv
  have hsame : (r.session.machine.listing, r.session.options.cycles) =
      (r'.session.machine.listing, r'.session.options.cycles) := by
    dsimp only [r, r']
    cbv
  simp only [Prod.mk.injEq] at hview hview' hsame
  obtain ⟨hdemand, hscript, hcoming, hwrites, hinterrupted⟩ := hview
  obtain ⟨hdemand', hscript', hcoming', hwrites'⟩ := hview'
  have hline : Line.ofText "RUN" = .command .RUN := by cbv
  have hrun : r.ReadsRun := ⟨hdemand, "RUN", _, hscript, by decide, hline⟩
  have hrun' : r'.ReadsRun := ⟨hdemand', "RUN", _, hscript', by decide, hline⟩
  have hahead : r.SameAhead r' := by
    refine ⟨hscript.trans hscript'.symm, fun k _ => ?_, fun k _ => ?_⟩
    · simp [Replay.FailsAhead, hcoming, hcoming']
    · simp only [Replay.InterruptedAhead, hwrites, hwrites', hcoming, hcoming', List.mem_singleton]
      omega
  refine ⟨hrun, hrun', hahead, hinterrupted, ?_⟩
  exact runs_forget_history.2.2 r r' hrun hrun' hahead hsame.1 hsame.2

end LineBasic
