import Mathlib
import LineBasic.Proofs.Interruption

/-!
# Interrupts outside of runs

A request to interrupt the run that arrives while none is driven stays outstanding, through any
number of commands and files, and is forgotten by the next command to run. So nothing comes of it:
without these requests a session goes the same way. The two sessions differ in nothing but whether a
request is outstanding, and in runs, where this is looked at, not even in that.
-/
namespace LineBasic

namespace Session

variable {s s' : Session}

/-! ## Outstanding requests -/

def withRequest (s : Session) (requested : Bool) : Session :=
  { s with interrupted := requested }

/-- The sessions differ at most in whether a request is outstanding, and in a run not even in
this. -/
def Agrees (s s' : Session) : Prop :=
  ∃ requested, s' = s.withRequest requested ∧ (s.activity.InRun → requested = s.interrupted)

namespace Agrees

theorem refl (s : Session) : s.Agrees s :=
  ⟨s.interrupted, rfl, fun _ => rfl⟩

theorem eq_of_inRun (h : s.Agrees s') (hrun : s.activity.InRun) : s' = s := by
  obtain ⟨requested, rfl, hsame⟩ := h
  rw [hsame hrun]
  rfl

theorem activity_eq (h : s.Agrees s') : s'.activity = s.activity := by
  obtain ⟨requested, rfl, _⟩ := h
  rfl

theorem demand_eq (h : s.Agrees s') : s'.demand = s.demand := by
  obtain ⟨requested, rfl, _⟩ := h
  rfl

theorem complete?_eq (h : s.Agrees s') (buffer : String) :
    s'.complete? buffer = s.complete? buffer := by
  obtain ⟨requested, rfl, _⟩ := h
  rfl

theorem performed (h : s.Agrees s') : s.performed.Agrees s'.performed := by
  obtain ⟨requested, rfl, hsame⟩ := h
  exact ⟨requested, rfl, hsame⟩

theorem close (h : s.Agrees s') : s.close.Agrees s'.close := by
  obtain ⟨requested, rfl, _⟩ := h
  exact ⟨requested, rfl, fun hrun => absurd hrun id⟩

theorem interrupt (h : s.Agrees s') : s.interrupt.Agrees s'.interrupt := by
  obtain ⟨requested, rfl, _⟩ := h
  exact refl s.interrupt

/-- Outside of runs it does not matter if one of them is not interrupted. -/
theorem interrupt_of_not_inRun (h : s.Agrees s') (hrun : ¬ s.activity.InRun) :
    s.interrupt.Agrees s' := by
  obtain ⟨requested, rfl, _⟩ := h
  exact ⟨requested, rfl, fun hrun' => absurd hrun' hrun⟩

/-- The command to run forgets the request in both. -/
theorem takeLine (h : s.Agrees s') (hrun : ¬ s.activity.InRun) (text : String) :
    (s.takeLine text).Agrees (s'.takeLine text) := by
  obtain ⟨requested, rfl, _⟩ := h
  have hmachine : (s.withRequest requested).machine = s.machine := rfl
  unfold Session.takeLine
  rw [hmachine]
  split
  · exact ⟨requested, rfl, fun hrun' => absurd hrun' id⟩
  · cases s.machine.enter text with
    | mk edit machine =>
      cases edit with
      | unchanged => exact ⟨requested, rfl, fun hrun' => absurd hrun' hrun⟩
      | malformed _ | updated _ | deleted _ =>
        exact ⟨requested, rfl, fun hrun' => absurd hrun' id⟩
      | command c =>
        cases c with
        | RUN => exact refl _
        | LOAD | LIST | CLEAR | HELP | QUIT =>
          exact ⟨requested, rfl, fun hrun' => absurd hrun' id⟩

theorem receive (h : s.Agrees s') (what : Reading) :
    (s.receive what).Agrees (s'.receive what) := by
  by_cases hrun : s.activity.InRun
  · rw [h.eq_of_inRun hrun]
    exact refl _
  · unfold Session.receive
    rw [h.activity_eq]
    cases hs : s.activity with
    | prompting =>
      cases what with
      | line text => exact h.takeLine hrun text
      | signal _ | endOfFile =>
        obtain ⟨requested, rfl, _⟩ := h
        exact ⟨requested, rfl, fun hrun' => absurd hrun' id⟩
    | naming =>
      obtain ⟨requested, rfl, _⟩ := h
      cases what <;> exact ⟨requested, rfl, fun hrun' => absurd hrun' id⟩
    | opening _ | closed => exact h
    | driving _ | asking _ =>
      rw [hs] at hrun
      exact absurd trivial hrun

theorem takeFile (h : s.Agrees s') (contents : Except FileFault (List String)) :
    (s.takeFile contents).Agrees (s'.takeFile contents) := by
  obtain ⟨requested, rfl, _⟩ := h
  cases contents <;> exact ⟨requested, rfl, fun hrun => absurd hrun id⟩

theorem advance [PowerRoutine] (h : s.Agrees s') : s.advance.Agrees s'.advance := by
  by_cases hrun : s.activity.InRun
  · rw [h.eq_of_inRun hrun]
    exact refl _
  · unfold Session.advance
    rw [h.activity_eq]
    split
    · rename_i hdriving
      rw [hdriving] at hrun
      exact absurd trivial hrun
    · exact h

end Agrees

/-! ## From a command to run until it is handed back -/

theorem channel_eq_input_iff {channel : Channel} {prompt : String}
    (h : s.demand = .readLine channel prompt) : channel = .input ↔ s.activity.InRun := by
  obtain ⟨_, hhears⟩ := hears_receive h .endOfFile
  generalize s.receive .endOfFile = after at hhears
  cases hhears with
  | left hactivity _ | unnamed hactivity _ | abandoned hactivity _ =>
    simp [hactivity, Activity.InRun]

theorem not_handedBack_of_inRun (hrun : s.activity.InRun) : ¬ s.HandedBack := by
  rintro (⟨hactivity, _⟩ | hactivity)
  · rw [hactivity] at hrun
    exact hrun
  · rw [hactivity] at hrun
    exact hrun

/-- A run has been started, and the session is over or has not yet said that it is ready again. -/
def Underway (s : Session) : Prop :=
  s.activity.InRun ∨ s.activity = .closed ∨
    (s.activity = .prompting ∧ ∃ said, s.outbox = said ++ [ready])

namespace Underway

theorem of_breakOff (effects : List Effect) : (s.breakOff effects).Underway :=
  .inr (.inr ⟨rfl, s.outbox ++ (effects ++ [broken]), by simp [breakOff, turnTo]⟩)

theorem performed (h : s.Underway) (hback : ¬ s.HandedBack) : s.performed.Underway := by
  rcases h with hrun | hclosed | ⟨hprompting, said, houtbox⟩
  · exact .inl hrun
  · exact .inr (.inl hclosed)
  · cases said with
    | nil => exact absurd (.inl ⟨hprompting, houtbox⟩) hback
    | cons e said => exact .inr (.inr ⟨hprompting, said, by simp [Session.performed, houtbox]⟩)

theorem inRun_of_demand (h : s.Underway) {channel : Channel} {prompt : String}
    (hneed : s.demand = .readLine channel prompt) : s.activity.InRun := by
  rcases h with hrun | hclosed | ⟨hprompting, said, houtbox⟩
  · exact hrun
  · cases houtbox : s.outbox <;> simp [demand, hclosed, houtbox] at hneed
  · cases said <;> simp [demand, houtbox] at hneed

theorem hears {channel : Channel} {prompt : String} {what : Reading} (hrun : s.activity.InRun)
    (hhears : s.Hears channel prompt what s') : s'.Underway := by
  cases hhears with
  | tooLong hactivity _ | edited hactivity _ _ | malformed hactivity _ _ | blank hactivity _ _
  | commanded hactivity _ _ | left hactivity _ | named hactivity | unnamed hactivity _ =>
    rw [hactivity] at hrun
    exact absurd hrun id
  | answered _ _ | refused _ _ => exact .inl trivial
  | cancelled _ | abandoned _ _ => exact of_breakOff _

theorem drives [PowerRoutine] (hdrives : s.Drives s') : s'.Underway := by
  cases hdrives with
  | breaks _ _ => exact of_breakOff _
  | begins _ _ => exact .inl trivial
  | pulls _ =>
    cases s.machine.step.1 with
    | print _ | warning _ | running | jumped _ | input _ => exact .inl trivial
    | failed e => exact .inr (.inr ⟨rfl, s.outbox ++ [report e], by simp [display, turnTo]⟩)
    | finished | idle => exact .inr (.inr ⟨rfl, s.outbox, rfl⟩)

end Underway

end Session

/-! ## What is removed -/

/-- The script without stray items, where an item is told by how many items are behind it. -/
def ScriptItem.sift (stray : Nat → Prop) [DecidablePred stray] : List ScriptItem → List ScriptItem
  | [] => []
  | item :: rest => if stray rest.length then sift stray rest else item :: sift stray rest

def Surroundings.without (counts : Nat → Prop) [DecidablePred counts] (w : Surroundings) :
    Surroundings :=
  { w with interruptAt := w.interruptAt.filter fun count => ¬ counts count }

/-- What happened, with interrupts left out unless they are kept. -/
def LogEntry.heard (kept : Prop) [Decidable kept] (log : List LogEntry) : List LogEntry :=
  if kept then log else log.filter (· ≠ .interrupt)

theorem LogEntry.heard_of_not_mem {kept : Prop} [Decidable kept] {log : List LogEntry}
    (h : .interrupt ∉ log) : heard kept log = log := by
  unfold heard
  split
  · rfl
  · apply List.filter_eq_self.mpr
    intro entry hentry
    simpa using ne_of_mem_of_not_mem hentry h

theorem ScriptItem.sift_eq_self {stray : Nat → Prop} [DecidablePred stray]
    {script : List ScriptItem} (h : ∀ left, left < script.length → ¬ stray left) :
    sift stray script = script := by
  induction script with
  | nil => rfl
  | cons item rest ih =>
    rw [sift, if_neg (h rest.length (by simp)), ih fun left hleft => h left (by simp; omega)]

namespace Replay

open ScriptItem (sift)
open LogEntry (heard heard_of_not_mem)

variable {r q q' : Replay} {n : Nat}

section

variable [PowerRoutine]

/-- After `n` steps a run is being driven: a command to run has been read, and since then the run
has not been handed back. -/
def Engaged (r : Replay) (n : Nat) : Prop :=
  ∃ i, i < n ∧ (r.run i).2.ReadsRun ∧ ∀ j, i < j → j ≤ n → ¬ (r.run j).2.session.HandedBack

/-- While no run is driven, a line is read and meets an interrupt with this many items behind
it. -/
def StrayItem (r : Replay) (left : Nat) : Prop :=
  ∃ n channel prompt rest, ¬ r.Engaged n ∧
    (r.run n).2.session.demand = .readLine channel prompt ∧
    (r.run n).2.script = .interrupt :: rest ∧ rest.length = left

/-- While no run is driven, the write of this count is made. -/
def StrayWrite (r : Replay) (count : Nat) : Prop :=
  ∃ n channel text, ¬ r.Engaged n ∧
    (r.run n).2.session.demand = .perform (.write channel text) ∧ (r.run n).2.writes + 1 = count

open Classical in
/-- The replay without the interrupts that arrive while no run is driven. -/
noncomputable def calmed (r : Replay) : Replay :=
  { r with
    script := sift r.StrayItem r.script
    surroundings := r.surroundings.without r.StrayWrite }

open Classical in
noncomputable def calmLog (r : Replay) : Nat → List LogEntry
  | 0 => []
  | n + 1 => r.calmLog n ++ heard (r.Engaged n) (r.run n).2.step.1

/-! ## When a run is driven -/

theorem underway_step (h : r.session.Underway) (hback : ¬ r.session.HandedBack) :
    r.step.2.session.Underway := by
  have hpasses := r.passes_step
  generalize r.step.1 = log at hpasses
  generalize r.step.2 = next at hpasses ⊢
  cases hpasses with
  | writeFails _ _ => exact .inr (.inl rfl)
  | writeInterrupted _ _ _ | written _ _ _ | performed _ _ => exact h.performed hback
  | readEnd hneed _ | read hneed _ =>
    exact .hears (h.inRun_of_demand hneed) (Session.hears_receive hneed _).2
  | readInterrupted _ _ | tab _ _ | rests _ => exact h
  | fileRead hneed =>
    have hactivity := (Session.opening_of_demand hneed).2
    simp [Session.Underway, hactivity, Activity.InRun] at h
  | advances hneed => exact .drives (Session.drives_advance hneed).2

theorem Engaged.underway (h : r.Engaged n) : (r.run n).2.session.Underway := by
  obtain ⟨i, hi, ⟨hneed, text, rest, hscript, hsize, hline⟩, hbefore⟩ := h
  induction n, hi using Nat.le_induction with
  | base =>
    rw [run_concat, step_of_readsRun hneed hscript hsize hline]
    exact .inl trivial
  | succ n hn ih =>
    rw [run_concat]
    apply underway_step
    · exact ih fun j hij hj => hbefore j hij (by omega)
    · exact hbefore n hn (by omega)

theorem engaged_of_inRun (h : ¬ r.session.activity.InRun)
    (hrun : (r.run n).2.session.activity.InRun) : r.Engaged n := by
  obtain ⟨i, k, _, rfl, hreads, hsince, _, _⟩ := run_origin h n hrun
  refine ⟨i, by omega, hreads, fun j hij hj => ?_⟩
  have hinRun := hsince (j - (i + 1)) (by omega)
  rw [Nat.add_sub_cancel' (by omega)] at hinRun
  exact Session.not_handedBack_of_inRun hinRun

theorem engaged_iff_of_demand (h : ¬ r.session.activity.InRun) {channel : Channel}
    {prompt : String} (hneed : (r.run n).2.session.demand = .readLine channel prompt) :
    r.Engaged n ↔ channel = .input := by
  rw [Session.channel_eq_input_iff hneed]
  constructor
  · intro hengaged
    exact hengaged.underway.inRun_of_demand hneed
  · exact engaged_of_inRun h

/-! ## Each item is read once, each write is counted once -/

theorem read_unique {m : Nat} {channel channel' : Channel} {prompt prompt' : String}
    {item item' : ScriptItem} {rest rest' : List ScriptItem}
    (hneed : (r.run m).2.session.demand = .readLine channel prompt)
    (hscript : (r.run m).2.script = item :: rest)
    (hneed' : (r.run n).2.session.demand = .readLine channel' prompt')
    (hscript' : (r.run n).2.script = item' :: rest') (hlength : rest.length = rest'.length) :
    m = n := by
  rcases Nat.lt_trichotomy m n with hlt | heq | hlt
  · have hfall := script_length_run_le (r := r) (Nat.succ_le_of_lt hlt)
    rw [run_concat, script_step_of_read hneed hscript, hscript', List.length_cons] at hfall
    omega
  · exact heq
  · have hfall := script_length_run_le (r := r) (Nat.succ_le_of_lt hlt)
    rw [run_concat, script_step_of_read hneed' hscript', hscript, List.length_cons] at hfall
    omega

theorem write_unique {m : Nat} {channel channel' : Channel} {text text' : String}
    (hneed : (r.run m).2.session.demand = .perform (.write channel text))
    (hneed' : (r.run n).2.session.demand = .perform (.write channel' text'))
    (hwrites : (r.run m).2.writes = (r.run n).2.writes) : m = n := by
  rcases Nat.lt_trichotomy m n with hlt | heq | hlt
  · have hrise := writes_run_le (r := r) (Nat.succ_le_of_lt hlt)
    rw [run_concat, writes_step_of_write hneed] at hrise
    omega
  · exact heq
  · have hrise := writes_run_le (r := r) (Nat.succ_le_of_lt hlt)
    rw [run_concat, writes_step_of_write hneed'] at hrise
    omega

theorem strayItem_iff {channel : Channel} {prompt : String} {item : ScriptItem}
    {rest : List ScriptItem} (hneed : (r.run n).2.session.demand = .readLine channel prompt)
    (hscript : (r.run n).2.script = item :: rest) :
    r.StrayItem rest.length ↔ item = .interrupt ∧ ¬ r.Engaged n := by
  constructor
  · rintro ⟨m, _, _, rest', hidle, hneed', hscript', hlength⟩
    obtain rfl := read_unique hneed' hscript' hneed hscript hlength
    rw [hscript] at hscript'
    exact ⟨(List.cons.inj hscript').1, hidle⟩
  · rintro ⟨rfl, hidle⟩
    exact ⟨n, channel, prompt, rest, hidle, hneed, hscript, rfl⟩

theorem strayWrite_iff {channel : Channel} {text : String}
    (hneed : (r.run n).2.session.demand = .perform (.write channel text)) :
    r.StrayWrite ((r.run n).2.writes + 1) ↔ ¬ r.Engaged n := by
  constructor
  · rintro ⟨m, _, _, hidle, hneed', hwrites⟩
    obtain rfl := write_unique hneed' hneed (Nat.succ.inj hwrites)
    exact hidle
  · intro hidle
    exact ⟨n, channel, text, hidle, hneed, rfl⟩

theorem not_strayItem_of_isOver (hover : (r.run n).2.isOver = true) {left : Nat}
    (hleft : left < (r.run n).2.script.length) : ¬ r.StrayItem left := by
  rintro ⟨m, channel, prompt, rest, _, hneed, hscript, hlength⟩
  rcases Nat.lt_or_ge m n with hlt | hge
  · have hfall := script_length_run_le (r := r) (Nat.succ_le_of_lt hlt)
    rw [run_concat, script_step_of_read hneed hscript] at hfall
    omega
  · rw [run_of_le hover hge] at hneed
    have hrests : (r.run n).2.session.demand = .nothing := eq_of_beq hover
    rw [hrests] at hneed
    cases hneed

end

/-! ## Side by side -/

section

variable {items counts : Nat → Prop} [DecidablePred items] [DecidablePred counts]
variable {kept : Prop} [Decidable kept]

/-- The second replay stands where the first one does, with these items and interrupts removed from
what is ahead. -/
structure Shadows (items counts : Nat → Prop) [DecidablePred items] [DecidablePred counts]
    (q q' : Replay) : Prop where
  session : q.session.Agrees q'.session
  script : q'.script = sift items q.script
  surroundings : q'.surroundings = q.surroundings.without counts
  writes : q'.writes = q.writes

/-- An interrupt that arrives in the next step is removed unless it is kept, and in a run it is
kept. -/
structure Removes (items counts : Nat → Prop) (kept : Prop) (q : Replay) : Prop where
  inRun : q.session.activity.InRun → kept
  item : ∀ {channel prompt item rest}, q.session.demand = .readLine channel prompt →
    q.script = item :: rest → (items rest.length ↔ item = .interrupt ∧ ¬ kept)
  count : ∀ {channel text}, q.session.demand = .perform (.write channel text) →
    (counts (q.writes + 1) ↔ ¬ kept)

omit [DecidablePred counts] in
theorem Removes.sift_eq (h : Removes items counts kept q) {channel : Channel} {prompt : String}
    {item : ScriptItem} {rest : List ScriptItem}
    (hneed : q.session.demand = .readLine channel prompt) (hscript : q.script = item :: rest) :
    sift items q.script =
      if item = .interrupt ∧ ¬ kept then sift items rest else item :: sift items rest := by
  rw [hscript, sift]
  simp only [h.item hneed hscript]

section

variable [PowerRoutine]

/-- Some steps of the second replay stand for one step of the first, which logs the entries and goes
over to the next state: one, unless an item of the script is removed. -/
def Mirrors (items counts : Nat → Prop) [DecidablePred items] [DecidablePred counts] (kept : Prop)
    [Decidable kept] (q q' : Replay) (log : List LogEntry) (next : Replay) : Prop :=
  ∃ m, (q'.run m).1 = heard kept log ∧ Shadows items counts next (q'.run m).2 ∧
    1 + next.script.length ≤ m + q.script.length

theorem Mirrors.of_passes {log log' : List LogEntry} {next next' : Replay}
    (hpasses : q'.Passes log' next') (hlog : log' = heard kept log)
    (hnext : Shadows items counts next next')
    (hscript : next.script.length ≤ q.script.length) : Mirrors items counts kept q q' log next := by
  refine ⟨1, ?_, ?_, Nat.add_le_add_left hscript 1⟩
  · rw [run_one, step_eq_of_passes hpasses, hlog]
  · rw [run_one, step_eq_of_passes hpasses]
    exact hnext

end

namespace Shadows

section

variable (h : Shadows items counts q q')
include h

theorem demand_eq : q'.session.demand = q.session.demand :=
  h.session.demand_eq

theorem fails_iff :
    q'.surroundings.failAt = some (q'.writes + 1) ↔
      q.surroundings.failAt = some (q.writes + 1) := by
  rw [h.surroundings, h.writes]
  exact Iff.rfl

theorem due_iff :
    q'.writes + 1 ∈ q'.surroundings.interruptAt ↔
      q.writes + 1 ∈ q.surroundings.interruptAt ∧ ¬ counts (q.writes + 1) := by
  simp [h.surroundings, h.writes, Surroundings.without]

theorem folder_eq : q'.surroundings.folder = q.surroundings.folder := by
  rw [h.surroundings]
  rfl

variable [PowerRoutine] (hremoves : Removes items counts kept q)
include hremoves

/-- An interrupt after a write that is removed leaves a write without interrupt. -/
theorem writeInterrupted {channel : Channel} {text : String}
    (hneed : q.session.demand = .perform (.write channel text))
    (hfails : q.surroundings.failAt ≠ some (q.writes + 1))
    (hmem : q.writes + 1 ∈ q.surroundings.interruptAt) :
    Mirrors items counts kept q q' [.performed (.write channel text), .interrupt]
      { q with session := q.session.performed.interrupt, writes := q.writes + 1 } := by
  have hneed' := h.demand_eq.trans hneed
  have hfails' := mt h.fails_iff.mp hfails
  have hwrites : q'.writes + 1 = q.writes + 1 := by rw [h.writes]
  by_cases hkept : kept
  · have hcount : ¬ counts (q.writes + 1) := by simp [hremoves.count hneed, hkept]
    exact .of_passes (.writeInterrupted hneed' hfails' (h.due_iff.mpr ⟨hmem, hcount⟩))
      (by simp [heard, hkept])
      ⟨h.session.performed.interrupt, h.script, h.surroundings, hwrites⟩ (Nat.le_refl _)
  · have hcount : counts (q.writes + 1) := (hremoves.count hneed).mpr hkept
    have hcalm := h.session.performed.interrupt_of_not_inRun (mt hremoves.inRun hkept)
    exact .of_passes (.written hneed' hfails' fun hmem' => (h.due_iff.mp hmem').2 hcount)
      (by simp [heard, hkept]) ⟨hcalm, h.script, h.surroundings, hwrites⟩ (Nat.le_refl _)

/-- An interrupt that is removed from the script is never seen by the second replay. -/
theorem readInterrupted {channel : Channel} {prompt : String} {rest : List ScriptItem}
    (hneed : q.session.demand = .readLine channel prompt)
    (hscript : q.script = .interrupt :: rest) :
    Mirrors items counts kept q q' [.interrupt]
      { q with session := q.session.interrupt, script := rest } := by
  have hscript' := h.script
  rw [hremoves.sift_eq hneed hscript] at hscript'
  by_cases hkept : kept
  · rw [if_neg (by simp [hkept])] at hscript'
    exact .of_passes (.readInterrupted (h.demand_eq.trans hneed) hscript')
      (by simp [heard, hkept]) ⟨h.session.interrupt, rfl, h.surroundings, h.writes⟩
      (by simp [hscript])
  · rw [if_pos ⟨rfl, hkept⟩] at hscript'
    have hcalm := h.session.interrupt_of_not_inRun (mt hremoves.inRun hkept)
    refine ⟨0, ?_, ⟨hcalm, hscript', h.surroundings, h.writes⟩, ?_⟩
    · simp [run, heard, hkept]
    · simp [hscript, Nat.add_comm]

theorem step : Mirrors items counts kept q q' q.step.1 q.step.2 := by
  have hpasses := q.passes_step
  have hfall := script_length_step_le q
  generalize q.step.1 = log at hpasses ⊢
  generalize q.step.2 = next at hpasses hfall ⊢
  have hshared {next' : Replay} (hsilent : .interrupt ∉ log) (hpasses' : q'.Passes log next')
      (hnext : Shadows items counts next next') : Mirrors items counts kept q q' log next :=
    .of_passes hpasses' (heard_of_not_mem hsilent).symm hnext hfall
  have hdemand := h.demand_eq
  have hwrites : q'.writes + 1 = q.writes + 1 := by rw [h.writes]
  have hscript := h.script
  cases hpasses with
  | writeFails hneed hfails =>
    apply hshared (by simp) (.writeFails (hdemand.trans hneed) (h.fails_iff.mpr hfails))
    exact ⟨h.session.close, hscript, h.surroundings, hwrites⟩
  | writeInterrupted hneed hfails hmem => exact h.writeInterrupted hremoves hneed hfails hmem
  | written hneed hfails hmem =>
    apply hshared (by simp) (.written (hdemand.trans hneed) (mt h.fails_iff.mp hfails)
      fun hmem' => hmem (h.due_iff.mp hmem').1)
    exact ⟨h.session.performed, hscript, h.surroundings, hwrites⟩
  | performed hneed hmute =>
    apply hshared (by simp) (.performed (hdemand.trans hneed) hmute)
    exact ⟨h.session.performed, hscript, h.surroundings, h.writes⟩
  | readEnd hneed hempty =>
    rw [hempty] at hscript
    apply hshared (by simp) (.readEnd (hdemand.trans hneed) hscript)
    exact ⟨h.session.receive _, h.script, h.surroundings, h.writes⟩
  | read hneed hitem =>
    rw [hremoves.sift_eq hneed hitem, if_neg (by simp)] at hscript
    apply hshared (by simp) (.read (hdemand.trans hneed) hscript)
    exact ⟨h.session.receive _, rfl, h.surroundings, h.writes⟩
  | readInterrupted hneed hitem => exact h.readInterrupted hremoves hneed hitem
  | @tab _ _ buffer _ hneed hitem =>
    rw [hremoves.sift_eq hneed hitem, if_neg (by simp)] at hscript
    rw [← h.session.complete?_eq buffer] at hshared ⊢
    apply hshared (by simp) (.tab (hdemand.trans hneed) hscript)
    exact ⟨h.session, rfl, h.surroundings, h.writes⟩
  | fileRead hneed =>
    apply hshared (by simp) (.fileRead (hdemand.trans hneed))
    rw [h.folder_eq]
    exact ⟨h.session.takeFile _, hscript, h.surroundings, h.writes⟩
  | advances hneed =>
    apply hshared (by simp) (.advances (hdemand.trans hneed))
    exact ⟨h.session.advance, hscript, h.surroundings, h.writes⟩
  | rests hneed => exact hshared (by simp) (.rests (hdemand.trans hneed)) h

end

theorem isOver_eq (h : Shadows items counts q q') : q'.isOver = q.isOver := by
  unfold isOver
  rw [h.demand_eq]

end Shadows

end

variable [PowerRoutine]

theorem removes_stray (h : ¬ r.session.activity.InRun) (n : Nat) :
    Removes r.StrayItem r.StrayWrite (r.Engaged n) (r.run n).2 where
  inRun := engaged_of_inRun h
  item := strayItem_iff
  count := strayWrite_iff

open Classical in
/-- All but the reads of removed interrupts are steps of the calmed replay too. -/
theorem shadows_run (h : ¬ r.session.activity.InRun) (n : Nat) :
    ∃ m, (r.calmed.run m).1 = r.calmLog n ∧
      Shadows r.StrayItem r.StrayWrite (r.run n).2 (r.calmed.run m).2 ∧
      n + (r.run n).2.script.length ≤ m + r.script.length := by
  induction n with
  | zero => exact ⟨0, rfl, ⟨.refl _, rfl, rfl, rfl⟩, by simp [run]⟩
  | succ n ih =>
    obtain ⟨m, hlog, hshadows, hsteps⟩ := ih
    obtain ⟨k, hlog', hnext, hsteps'⟩ := hshadows.step (removes_stray h n)
    refine ⟨m + k, ?_, ?_, ?_⟩
    · rw [run_add, hlog, hlog', calmLog]
    · rw [run_concat, run_add_snd]
      exact hnext
    · rw [run_concat]
      dsimp only
      omega

open Classical in
theorem Shadows.script_eq_of_isOver (h : Shadows r.StrayItem r.StrayWrite (r.run n).2 q')
    (hover : (r.run n).2.isOver = true) : q'.script = (r.run n).2.script := by
  rw [h.script]
  apply ScriptItem.sift_eq_self
  intro left hleft
  exact not_strayItem_of_isOver hover hleft

/-- Interrupts that arrive while no run is driven can be removed. These are the ones that are met
when a line other than a value is read, and those after writes that are not made from a command to
run until the run is handed back. Without them the session logs the same but for these interrupts,
with as many steps but for the removed reads, and it ends if and only if it did before, with the
same items left unread. -/
theorem stray_interrupts_harmless (options : Options) (file : Option String)
    (script : List ScriptItem) (surroundings : Surroundings) :
    let r := begin options file script surroundings
    let r' := r.calmed
    (∀ n channel prompt, (r.run n).2.session.demand = .readLine channel prompt →
      (r.Engaged n ↔ channel = .input) ∧
      ∀ item rest, (r.run n).2.script = item :: rest →
        (r.StrayItem rest.length ↔ item = .interrupt ∧ channel ≠ .input)) ∧
    (∀ n, ∃ m, n ≤ m + script.length ∧ (r'.run m).1 = r.calmLog n) ∧
    (∀ n, (r.run n).2.isOver = true →
      ∃ last, r'.Ends (r.calmLog n) last ∧ last.script = (r.run n).2.script) ∧
    (∀ log last, r'.Ends log last →
      ∃ n, (r.run n).2.isOver = true ∧ r.calmLog n = log ∧
        (r.run n).2.script = last.script) := by
  classical
  intro r r'
  have hidle : ¬ r.session.activity.InRun := not_inRun_begin options file script surroundings
  refine ⟨fun n channel prompt hneed => ?_, fun n => ?_, fun n hover => ?_, ?_⟩
  · have hengaged := engaged_iff_of_demand hidle hneed
    refine ⟨hengaged, fun item rest hscript => ?_⟩
    rw [strayItem_iff hneed hscript, hengaged]
  · obtain ⟨m, hlog, _, hsteps⟩ := shadows_run hidle n
    exact ⟨m, (Nat.le_add_right _ _).trans hsteps, hlog⟩
  · obtain ⟨m, hlog, hshadows, _⟩ := shadows_run hidle n
    have hover' : (r'.run m).2.isOver = true := hshadows.isOver_eq.trans hover
    refine ⟨(r'.run m).2, ?_, hshadows.script_eq_of_isOver hover⟩
    rw [← hlog]
    exact ends_of_isOver hover'
  · rintro log last ⟨m₀, hrun, hover⟩
    -- So many steps go beyond the end, even if every item of the script is removed.
    obtain ⟨m, hlog, hshadows, hsteps⟩ := shadows_run hidle (m₀ + script.length)
    have hlength : r.script.length = script.length := rfl
    have hend : r'.run m = (log, last) := by
      rw [← hrun]
      apply run_of_le
      · rw [hrun, hover]
      · omega
    have hover' : (r.run (m₀ + script.length)).2.isOver = true := by
      rw [← hshadows.isOver_eq, hend, hover]
    refine ⟨m₀ + script.length, hover', ?_, ?_⟩
    · rw [← hlog, hend]
    · rw [← hshadows.script_eq_of_isOver hover', hend]

end Replay

end LineBasic
