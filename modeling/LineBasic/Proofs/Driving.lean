import Mathlib
import LineBasic.Proofs.Conversations
import LineBasic.Proofs.Dialogues
import LineBasic.Proofs.Replays
import LineBasic.Session.Driver

/-!
# The driver and its session

A session is a process that says what it needs; the driver is a program with loops and calls. Both
lead the same conversation: whatever the driver logs is what steps of the session log, and the one
comes to its end as the other does. A loop of the driver that has gone through its rounds has led
the session through at least as many steps.
-/
namespace LineBasic

variable [PowerRoutine]

namespace Talk

/-- After `j` steps the replay is where the dialogue has come to: with its result the postcondition
holds, a failed write has ended the replay, and if the dialogue was cut off there have been `n`
steps at least. -/
def Meets {α : Type} (n : Nat) (post : α → Scene → Replay → Prop)
    (played : Played (Except WriteFault α)) (j : Nat) (r : Replay) : Prop :=
  match played.result with
  | some (.ok a) => post a played.last r
  | some (.error _) => r.isOver = true ∧ r.script = played.last.script
  | none => n ≤ j ∧ r.isOver = false

/-- Some steps of the replay log what the dialogue logs, and come to what it comes to. -/
def Leads {α : Type} (n : Nat) (d : Talk α) (s : Scene) (r : Replay)
    (post : α → Scene → Replay → Prop) : Prop :=
  ∃ j, (r.run j).1 = (d.run.play s).log ∧ Meets n post (d.run.play s) j (r.run j).2

variable {α β : Type} {n : Nat} {s : Scene} {r : Replay} {post : α → Scene → Replay → Prop}

omit [PowerRoutine] in
theorem Meets.later {played : Played (Except WriteFault α)} {j n' j' : Nat}
    (h : Meets n post played j r) (hle : n ≤ j → n' ≤ j') (log : List LogEntry) :
    Meets n' post ⟨log, played.result, played.last⟩ j' r := by
  unfold Meets at h ⊢
  dsimp only
  split at h
  · exact h
  · exact h
  · exact ⟨hle h.1, h.2⟩

namespace Leads

/-! ## Rules -/

theorem pure {a : α} (h : post a s r) : Leads n (Pure.pure a) s r post :=
  ⟨0, rfl, h⟩

theorem unfinished (h : r.isOver = false) : Leads 0 (.unfinished : Talk α) s r post :=
  ⟨0, rfl, Nat.le_refl 0, h⟩

theorem bind {d : Talk α} {f : α → Talk β} {post' : β → Scene → Replay → Prop}
    (h : Leads n d s r post) (hf : ∀ a s r, post a s r → Leads n (f a) s r post') :
    Leads n (d >>= f) s r post' := by
  obtain ⟨j, hlog, hmeets⟩ := h
  rw [Leads, play_bind]
  unfold Meets at hmeets
  cases hresult : (d.run.play s).result with
  | none =>
    rw [hresult] at hmeets
    exact ⟨j, hlog, hmeets⟩
  | some outcome =>
    rw [hresult] at hmeets
    cases outcome with
    | error fault => exact ⟨j, hlog, hmeets⟩
    | ok a =>
      obtain ⟨i, hlog', hmeets'⟩ := hf a _ _ hmeets
      refine ⟨j + i, by rw [Replay.run_add, hlog, hlog'], ?_⟩
      rw [Replay.run_add_snd]
      exact hmeets'.later (fun hle => by omega) _

theorem of_le {n' : Nat} {d : Talk α} (h : Leads n d s r post) (hle : n' ≤ n) :
    Leads n' d s r post := by
  obtain ⟨j, hlog, hmeets⟩ := h
  exact ⟨j, hlog, hmeets.later hle.trans _⟩

theorem silent {d : Talk α} {r' : Replay} (hstep : r.step = ([], r')) (h : Leads n d s r' post) :
    Leads n d s r post := by
  obtain ⟨j, hlog, hmeets⟩ := h
  refine ⟨j + 1, ?_, ?_⟩
  · rw [Replay.run_succ, hstep]
    exact hlog
  · rw [Replay.run_succ, hstep]
    exact hmeets.later (fun hle => by omega) _

/-- A request that at least one step of the replay stands for. -/
theorem ask {request : Request} {f : request.Answer → Talk α} {i : Nat} {r' : Replay}
    (hrun : r.run (i + 1) = ((s.answer request).1, r'))
    (h : Leads n (f (s.answer request).2.1) (s.answer request).2.2 r' post) :
    Leads (n + 1) (ExceptT.lift (.ask request .finished) >>= f) s r post := by
  obtain ⟨j, hlog, hmeets⟩ := h
  refine ⟨i + 1 + j, ?_, ?_⟩
  · rw [Replay.run_add, hrun, hlog]
    rfl
  · rw [Replay.run_add_snd, hrun]
    exact hmeets.later (fun hle => by omega) _

end Leads

end Talk

/-- The replay of a session at some activity, in a scene. -/
def Scene.playing (s : Scene) (options : Options) (m : Machine) (activity : Activity)
    (outbox : List Effect) : Replay :=
  ⟨⟨options, m, s.interrupted, activity, outbox⟩, s.script, s.surroundings, s.writes⟩

/-- A session at the activity reads a line, completed in the given way. -/
structure Activity.Reads (activity : Activity) (options : Options) (m : Machine) (channel : Channel)
    (prompt : String) (complete? : String → Option String) : Prop where
  demand : ∀ interrupted,
    (⟨options, m, interrupted, activity, []⟩ : Session).demand = .readLine channel prompt
  complete : ∀ interrupted buffer,
    (⟨options, m, interrupted, activity, []⟩ : Session).complete? buffer = complete? buffer

theorem Activity.Reads.exists_run {activity : Activity} {options : Options} {m : Machine}
    {channel : Channel} {prompt : String} {complete? : String → Option String}
    (h : activity.Reads options m channel prompt complete?) (s : Scene) :
    ∃ i, (s.playing options m activity []).run (i + 1) =
      let answered := s.answer (.readLine channel prompt complete?)
      let heard := answered.2.2.playing options m activity []
      (answered.1, { heard with session := heard.session.receive answered.2.1 }) := by
  obtain ⟨script, surroundings, writes, interrupted⟩ := s
  induction script generalizing interrupted with
  | nil =>
    refine ⟨0, ?_⟩
    rw [Replay.run_one, Replay.step_eq_of_passes (.readEnd (h.demand _) rfl)]
    simp [Scene.answer, Scene.playing, Hearing.ofScript]
  | cons item rest ih =>
    cases item with
    | reading what =>
      refine ⟨0, ?_⟩
      rw [Replay.run_one, Replay.step_eq_of_passes (.read (h.demand _) rfl)]
      simp [Scene.answer, Scene.playing, Hearing.ofScript]
    | interrupt =>
      have hstep : (Scene.playing ⟨.interrupt :: rest, surroundings, writes, interrupted⟩
          options m activity []).step = ([.interrupt],
            Scene.playing ⟨rest, surroundings, writes, true⟩ options m activity []) :=
        Replay.step_eq_of_passes (.readInterrupted (h.demand _) rfl)
      obtain ⟨i, hi⟩ := ih true
      refine ⟨i + 1, ?_⟩
      rw [Replay.run_succ, hstep, hi]
      simp [Scene.answer, Scene.playing, Hearing.ofScript]
    | tab buffer =>
      have hstep : (Scene.playing ⟨.tab buffer :: rest, surroundings, writes, interrupted⟩
          options m activity []).step = ([.tab channel buffer (complete? buffer)],
            Scene.playing ⟨rest, surroundings, writes, interrupted⟩ options m activity []) := by
        rw [← h.complete interrupted buffer]
        exact Replay.step_eq_of_passes (.tab (h.demand _) rfl)
      obtain ⟨i, hi⟩ := ih interrupted
      refine ⟨i + 1, ?_⟩
      rw [Replay.run_succ, hstep, hi]
      simp [Scene.answer, Scene.playing, Hearing.ofScript]

namespace Talk.Leads

variable {α : Type} {n : Nat} {s : Scene} {r : Replay} {post : α → Scene → Replay → Prop}
  {options : Options} {m : Machine} {activity : Activity} {rest : List Effect}

/-! ## Requests -/

theorem remember {channel : Channel} {line : String}
    (h : r.session.outbox = .remember channel line :: rest) :
    Leads n (Talk.perform (.remember channel line)) s r fun _ s' r' =>
      s' = s ∧ r' = { r with session := r.session.performed } := by
  have hdemand : r.session.demand = .perform (.remember channel line) := by
    rw [Session.demand, h]
  refine ⟨1, ?_⟩
  rw [Replay.run_one, Replay.step_eq_of_passes (.performed hdemand (by simp))]
  exact ⟨rfl, rfl, rfl⟩

theorem write (channel : Channel) (text : String) :
    Leads n (Talk.perform (.write channel text)) s
      (s.playing options m activity (.write channel text :: rest)) fun _ s' r' =>
        r' = s'.playing options m activity rest := by
  rw [Leads, play_perform]
  refine ⟨1, ?_⟩
  rw [Replay.run_one]
  by_cases hfail : s.surroundings.failAt = some (s.writes + 1)
  · rw [Scene.answer_write_of_failing _ _ hfail, Replay.step_eq_of_passes (.writeFails rfl hfail)]
    exact ⟨rfl, rfl, rfl⟩
  · rw [Scene.answer_write_of_free _ _ hfail]
    by_cases hdue : s.writes + 1 ∈ s.surroundings.interruptAt
    · rw [Replay.step_eq_of_passes (.writeInterrupted rfl hfail hdue)]
      simp [Meets, Scene.playing, hdue, Session.performed, Session.interrupt]
    · rw [Replay.step_eq_of_passes (.written rfl hfail hdue)]
      simp [Meets, Scene.playing, hdue, Session.performed]

theorem perform (e : Effect) :
    Leads n (Talk.perform e) s (s.playing options m activity (e :: rest)) fun _ s' r' =>
      r' = s'.playing options m activity rest := by
  cases e with
  | write channel text => exact write channel text
  | remember _ _ | setBuffer _ _ | cancel _ => exact ⟨1, rfl, rfl⟩

theorem perform_bind {e : Effect} {f : Unit → Talk α}
    (hf : ∀ s : Scene, Leads n (f ()) s (s.playing options m activity rest) post) :
    Leads n (Talk.perform e >>= f) s (s.playing options m activity (e :: rest)) post := by
  refine (perform e).bind ?_
  rintro _ s' _ rfl
  exact hf s'

theorem performAll {γ : Type} (effect : γ → Effect) (xs : List γ) :
    Leads n (xs.forM fun x => Talk.perform (effect x)) s
      (s.playing options m activity (xs.map effect ++ rest)) fun _ s' r' =>
        r' = s'.playing options m activity rest := by
  induction xs generalizing s with
  | nil => exact pure rfl
  | cons x xs ih => exact perform_bind fun s => ih

theorem readFile (name : String) :
    Leads n (Talk.readFile name) s (s.playing options m (.opening name) []) fun contents s' r' =>
      r' = { s'.playing options m (.opening name) [] with
        session := (s'.playing options m (.opening name) []).session.takeFile contents } :=
  ⟨1, rfl, rfl⟩

/-- Reading a line takes at least one step, and is over when the session has received it. -/
theorem readLine {channel : Channel} {prompt : String} {complete? : String → Option String}
    {f : Reading → Talk α} (h : activity.Reads options m channel prompt complete?)
    (hf : ∀ what (s : Scene), Leads n (f what) s
      { s.playing options m activity [] with
        session := (s.playing options m activity []).session.receive what } post) :
    Leads (n + 1) (Talk.readLine channel prompt complete? >>= f) s
      (s.playing options m activity []) post := by
  obtain ⟨i, hi⟩ := h.exists_run s
  exact ask hi (hf _ _)

theorem takeInterrupt {f : Bool → Talk α}
    (hbreak : ∀ s : Scene, Leads n (f true) s
      (s.playing options m.interrupt .prompting [Session.broken, Session.ready]) post)
    (hgo : ∀ s : Scene, Leads n (f false) s
      (s.playing options m (.driving (max options.cycles 1)) []) post) :
    Leads (n + 1) (Talk.takeInterrupt >>= f) s (s.playing options m (.driving 0) []) post := by
  obtain ⟨script, surroundings, writes, interrupted⟩ := s
  cases interrupted with
  | true => exact ask (i := 0) rfl (hbreak ⟨script, surroundings, writes, false⟩)
  | false => exact ask (i := 0) rfl (hgo ⟨script, surroundings, writes, false⟩)

theorem discard_takeInterrupt :
    Leads n (discard Talk.takeInterrupt) s r fun _ s' r' =>
      s' = { s with interrupted := false } ∧ r' = r :=
  ⟨0, rfl, rfl, rfl⟩

end Talk.Leads

/-! ## The parts of the driver -/

namespace Driver

open Session (outlined ready broken)
open Talk (Leads)

variable {n : Nat} {s : Scene} {options : Options} {m : Machine}

theorem leads_showOutline {α : Type} {f : Unit → Talk α} {p : Program} {activity : Activity}
    {outbox rest : List Effect} {post : α → Scene → Replay → Prop}
    (houtbox : outbox = outlined options p ++ rest)
    (hf : ∀ s : Scene, Leads n (f ()) s (s.playing options m activity rest) post) :
    Leads n (showOutline options p >>= f) s (s.playing options m activity outbox) post := by
  subst houtbox
  unfold showOutline outlined
  split
  · exact .perform_bind hf
  · exact hf s

theorem leads_openFile (name : String) :
    Leads n (openFile options m name) s (s.playing options m (.opening name) []) fun m' s' r' =>
      r' = s'.playing options m' .prompting [ready] := by
  refine (Leads.readFile name).bind ?_
  rintro contents s' _ rfl
  cases contents with
  | ok lines => exact leads_showOutline rfl fun s => .pure rfl
  | error fault => exact .perform_bind fun s => .pure rfl

def Answered (options : Options) : Bool × Machine → Scene → Replay → Prop
  | (true, m), s, r => m.Active ∧ r = s.playing options m (.driving 0) []
  | (false, m), s, r => r = s.playing options m.interrupt .prompting [broken, ready]

theorem leads_readInput (name : String) (rounds : Nat) (h : m.Active) :
    Leads rounds (readInput name rounds m) s (s.playing options m (.asking name) [])
      (Answered options) := by
  induction rounds generalizing m s with
  | zero => exact .unfinished rfl
  | succ rounds ih =>
    refine .readLine ⟨fun _ => rfl, fun _ _ => rfl⟩ fun what s => ?_
    cases what with
    | line text =>
      have hactive := h.input text
      cases hinput : m.input text with
      | mk taken m' =>
        rw [hinput] at hactive
        simp only [Scene.playing, Session.receive, Session.takeValue, hinput]
        cases taken with
        | true => exact .perform_bind fun s => .pure ⟨hactive, rfl⟩
        | false => exact .perform_bind fun s => ih hactive
    | signal signal =>
      cases signal with
      | interrupt => exact .perform_bind fun s => .perform_bind fun s => .pure rfl
      | breakSignal | continueSignal | suspend | quit => exact .pure rfl
    | endOfFile => exact .pure rfl

def Shown (options : Options) : BatchEnd × Machine → Scene → Replay → Prop
  | (.runOver, m), s, r => r = s.playing options m .prompting [ready]
  | (.paused none, m), s, r => m.Active ∧ r = s.playing options m (.driving 0) []
  | (.paused (some name), m), s, r => m.Active ∧ r = s.playing options m (.asking name) []

theorem batch_of_done (awaited : Option String) (n : Nat) (m : Machine) :
    batch awaited n ⟨m, true⟩ = pure (.paused awaited, m) := by
  cases n <;> rfl

theorem leads_batch (k : Nat) (h : m.Active) :
    Leads n (batch none k (.of m)) s (s.playing options m (.driving k) []) (Shown options) := by
  induction k generalizing m s with
  | zero => exact .pure ⟨h, rfl⟩
  | succ k ih =>
    have hidle := h.invariant.step_ne_idle h.phase
    have hactive := h.step
    have hnext : (Steps.of m).next = (some m.step.1, ⟨m.step.2, m.step.1.pauses⟩) :=
      Steps.next_of_ne_idle rfl hidle
    have hstep : (s.playing options m (.driving (k + 1)) []).step =
        ([], { s.playing options m.step.2 (.driving (k + 1)) [] with
          session := (s.playing options m.step.2 (.driving (k + 1)) []).session.display
            k m.step.1 }) := rfl
    refine .silent hstep ?_
    rw [batch, hnext]
    generalize m.step.2 = m' at hactive ⊢
    generalize m.step.1 = event at hidle ⊢
    cases event with
    | idle => exact absurd rfl hidle
    | running | jumped _ => exact ih hactive
    | print _ | warning _ => exact .perform_bind fun s => ih hactive
    | input name =>
      dsimp only [Event.pauses]
      rw [batch_of_done]
      exact .pure ⟨hactive, rfl⟩
    | finished => exact .pure rfl
    | failed e => exact .perform_bind fun s => .pure rfl

theorem leads_drive (rounds : Nat) (h : m.Active) :
    Leads rounds (drive options rounds m) s (s.playing options m (.driving 0) []) fun m' s' r' =>
      r' = s'.playing options m' .prompting [ready] := by
  induction rounds generalizing m s with
  | zero => exact .unfinished rfl
  | succ rounds ih =>
    refine .takeInterrupt (fun s => ?_) (fun s => ?_)
    · exact .perform_bind fun s => .pure rfl
    · refine (leads_batch _ h).bind ?_
      rintro ⟨_ | _ | name, m'⟩ s' r' hshown
      · exact .pure hshown
      · obtain ⟨hactive, rfl⟩ := hshown
        dsimp only
        rw [if_neg hactive.phase]
        exact ih hactive
      · obtain ⟨hactive, rfl⟩ := hshown
        refine (leads_readInput name rounds hactive).bind ?_
        rintro ⟨_ | _, m''⟩ s'' r'' hanswered
        · obtain rfl := hanswered
          exact .perform_bind fun s => .pure rfl
        · obtain ⟨hactive', rfl⟩ := hanswered
          exact ih hactive'

theorem leads_obey (rounds : Nat) {c : Command} (hc : c ≠ .QUIT) :
    Leads rounds (obey options rounds m c) s
      { s.playing options m .prompting [] with
        session := (s.playing options m .prompting []).session.obey c } fun m' s' r' =>
        r' = s'.playing options m' .prompting [ready] := by
  cases c with
  | QUIT => exact absurd rfl hc
  | RUN =>
    refine Leads.discard_takeInterrupt.bind ?_
    rintro _ _ _ ⟨rfl, rfl⟩
    exact leads_drive rounds (.start m)
  | LOAD =>
    refine Leads.of_le (.readLine ⟨fun _ => rfl, fun _ _ => rfl⟩ fun what s => ?_)
      (Nat.le_succ rounds)
    cases what with
    | line name => exact leads_openFile _
    | signal _ | endOfFile => exact .pure rfl
  | LIST =>
    refine (Leads.performAll Session.tell m.listing.sources).bind ?_
    rintro _ s' _ rfl
    exact .pure rfl
  | CLEAR => exact .pure rfl
  | HELP => exact .perform_bind fun s => .pure rfl

omit [PowerRoutine] in
/-- The line of a command is remembered before the command is carried out. -/
theorem performed_obey (options : Options) (m : Machine) (interrupted : Bool) (text : String)
    (c : Command) :
    let idle : Session := ⟨options, m, interrupted, .prompting, []⟩
    let obeying := (idle.turnTo .prompting [.remember .basic text]).obey c
    obeying.outbox = .remember .basic text :: (idle.obey c).outbox ∧
      obeying.performed = idle.obey c := by
  cases c <;> exact ⟨rfl, rfl⟩

theorem leads_converse (rounds : Nat) :
    Leads rounds (converse options rounds m) s (s.playing options m .prompting []) fun _ s' r' =>
      r'.isOver = true ∧ r'.script = s'.script := by
  induction rounds generalizing m s with
  | zero => exact .unfinished rfl
  | succ rounds ih =>
    refine .readLine ⟨fun _ => rfl, fun _ _ => rfl⟩ fun what s => ?_
    cases what with
    | line text =>
      simp only [Session.receive, Session.takeLine, Scene.playing]
      split
      · exact .perform_bind fun s => ih
      · cases hedit : m.enter text with
        | mk edit m' =>
          cases edit with
          | unchanged => exact ih
          | malformed e => exact .perform_bind fun s => ih
          | updated _ | deleted _ =>
            exact .perform_bind fun s => leads_showOutline (List.append_nil _).symm fun s => ih
          | command c =>
            obtain ⟨houtbox, hperformed⟩ := performed_obey options m' s.interrupted text c
            refine (Leads.remember houtbox).bind ?_
            rintro _ _ _ ⟨rfl, rfl⟩
            dsimp only
            rw [hperformed]
            split
            · rename_i hc
              subst hc
              exact .pure ⟨rfl, rfl⟩
            · rename_i hc
              refine (leads_obey rounds hc).bind ?_
              rintro m'' s' _ rfl
              exact .perform_bind fun s => ih
    | signal _ | endOfFile => exact .pure ⟨rfl, rfl⟩

theorem leads_run (options : Options) (file : Option String) (script : List ScriptItem)
    (surroundings : Surroundings) (rounds : Nat) :
    Leads rounds (run options file rounds) (.begin script surroundings)
      (.begin options file script surroundings) fun _ s' r' =>
        r'.isOver = true ∧ r'.script = s'.script := by
  have hsetUp : Leads rounds (setUp options file) (.begin script surroundings)
      (.begin options file script surroundings) fun m s' r' =>
        r' = s'.playing options m .prompting [ready] := by
    cases file with
    | some name => exact leads_openFile name
    | none => exact .pure rfl
  refine hsetUp.bind ?_
  rintro m s' _ rfl
  exact .perform_bind fun s => leads_converse rounds

/-! ## The whole conversation -/

section

variable (options : Options) (file : Option String) (script : List ScriptItem)
  (surroundings : Surroundings)

theorem ends_of_result {rounds : Nat} {result : Except WriteFault Unit}
    (h : (play options file script surroundings rounds).result = some result) :
    ∃ last, (Replay.begin options file script surroundings).Ends
        (play options file script surroundings rounds).log last ∧
      last.script = (play options file script surroundings rounds).last.script := by
  obtain ⟨n, hlog, hmeets⟩ := leads_run options file script surroundings rounds
  rw [← play] at hlog hmeets
  rw [Talk.Meets, h] at hmeets
  refine ⟨_, ⟨n, Prod.ext hlog rfl, ?_⟩, ?_⟩
  · cases result <;> exact hmeets.1
  · cases result <;> exact hmeets.2

theorem exists_run_of_cut_off {rounds : Nat}
    (h : (play options file script surroundings rounds).result = none) :
    ∃ n, rounds ≤ n ∧ ((Replay.begin options file script surroundings).run n).1 =
        (play options file script surroundings rounds).log ∧
      ((Replay.begin options file script surroundings).run n).2.isOver = false := by
  obtain ⟨n, hlog, hmeets⟩ := leads_run options file script surroundings rounds
  rw [← play] at hlog hmeets
  rw [Talk.Meets, h] at hmeets
  exact ⟨n, hmeets.1, hlog, hmeets.2⟩

/-- What the driver logs, the session logs in some of its steps. -/
theorem exists_log_run_eq (rounds : Nat) :
    ∃ n, ((Replay.begin options file script surroundings).run n).1 =
      (play options file script surroundings rounds).log := by
  obtain ⟨n, hlog, _⟩ := leads_run options file script surroundings rounds
  exact ⟨n, hlog⟩

/-- The driver comes to its end just when the session does, with the same log and as much of the
script left. -/
theorem ends_iff (log : List LogEntry) (unread : List ScriptItem) :
    (∃ last, (Replay.begin options file script surroundings).Ends log last ∧
      last.script = unread) ↔
    ∃ rounds result last, last.script = unread ∧
      play options file script surroundings rounds = ⟨log, some result, last⟩ := by
  constructor
  · rintro ⟨last, hends, rfl⟩
    obtain ⟨n, hrun, hover⟩ := hends
    cases hresult : (play options file script surroundings (n + 1)).result with
    | none =>
      obtain ⟨j, hj, _, hnot⟩ := exists_run_of_cut_off options file script surroundings hresult
      rw [Replay.run_of_le (by rw [hrun, hover]) (Nat.le_of_succ_le hj), hrun, hover] at hnot
      cases hnot
    | some result =>
      obtain ⟨last', hends', hscript⟩ := ends_of_result options file script surroundings hresult
      obtain ⟨hlog, rfl⟩ := Replay.Ends.unique ⟨n, hrun, hover⟩ hends'
      refine ⟨n + 1, result, _, hscript.symm, ?_⟩
      rw [hlog, ← hresult]
  · rintro ⟨rounds, result, last, rfl, hplay⟩
    have hends := ends_of_result options file script surroundings (congrArg Played.result hplay)
    rwa [hplay] at hends

/-- What the session logs in its first steps, the driver logs in enough rounds. -/
theorem exists_log_run_prefix (n : Nat) :
    ∃ rounds, ((Replay.begin options file script surroundings).run n).1 <+:
      (play options file script surroundings rounds).log := by
  refine ⟨n, ?_⟩
  cases hresult : (play options file script surroundings n).result with
  | none =>
    obtain ⟨j, hj, hlog, _⟩ := exists_run_of_cut_off options file script surroundings hresult
    rw [← hlog]
    exact Replay.log_run_prefix hj
  | some result =>
    obtain ⟨last, ⟨j, hrun, hover⟩, _⟩ := ends_of_result options file script surroundings hresult
    rw [← show _ = (play options file script surroundings n).log from congrArg Prod.fst hrun]
    rcases Nat.le_total n j with hnj | hjn
    · exact Replay.log_run_prefix hnj
    · rw [Replay.run_of_le (by rw [hrun, hover]) hjn]

end

end Driver

end LineBasic
