import Mathlib
import LineBasic.Proofs.ListingHistory
import LineBasic.Proofs.Numerals
import LineBasic.Proofs.Reloading

/-!
# Recalling a line by its number

A number typed at the prompt can be completed to the text of its line. What completes is a copy of
the program, put in place when the reading of a line begins and taken away when it ends. A copy may
fall behind its original; this one never does, whatever happened before the reading began, since
nothing changes the program while a line is read. So what is recalled is always the line as it
stands, and to submit it again changes nothing.
-/
namespace LineBasic

/-! ## Which line is asked for -/

namespace Decimal

inductive UnsignedNumeral : List Char → Nat → Prop
  | plain {ds : List Char} {n : Nat} : Numeral ds n → UnsignedNumeral ds n
  | plus {ds : List Char} {n : Nat} : Numeral ds n → UnsignedNumeral ('+' :: ds) n

theorem unsigned?_eq_some_iff {cs : List Char} {w : UInt64} :
    unsigned? cs = some w ↔ UnsignedNumeral cs w.toNat := by
  have hread (ds : List Char) :
      (natural? ds).bind Range.unsigned? = some w ↔ Numeral ds w.toNat := by
    simp only [Option.bind_eq_some_iff, natural?_eq_some_iff, Range.unsigned?_eq_some_iff,
      exists_eq_right']
  unfold unsigned?
  split
  · rw [hread]
    constructor
    · exact .plus
    · intro h
      cases h with
      | plain h => exact absurd h (not_numeral_cons (by decide))
      | plus h => exact h
  · rename_i hplus
    rw [hread]
    constructor
    · exact .plain
    · intro h
      cases h with
      | plain h => exact h
      | plus h => exact absurd rfl (hplus _)

end Decimal

/-- Completes the number of a line to its text. -/
def Program.complete? (p : Program) (buffer : String) : Option String :=
  (Decimal.unsigned? (Text.trim buffer.toList)).bind p.source?

theorem Program.complete?_eq_some_iff {p : Program} {buffer text : String} :
    p.complete? buffer = some text ↔ ∃ number : LineNumber,
      Decimal.UnsignedNumeral (Text.trim buffer.toList) number.toNat ∧
        p.source? number = some text := by
  simp only [complete?, Option.bind_eq_some_iff, Decimal.unsigned?_eq_some_iff]

namespace Session

variable {s : Session}

/-- Only at the prompt is anything completed, and there from the program as it stands. -/
theorem complete?_of_demand {channel : Channel} {prompt : String}
    (h : s.demand = .readLine channel prompt) (buffer : String) :
    s.complete? buffer =
      if channel = .basic then s.machine.listing.complete? buffer else none := by
  unfold demand at h
  split at h
  · cases h
  · cases hactivity : s.activity with
    | prompting | naming | asking _ =>
      simp only [hactivity, Demand.readLine.injEq] at h
      simp [complete?, hactivity, ← h.1, Program.complete?]
    | opening _ | driving _ | closed => simp [hactivity] at h

end Session

/-! ## Completing from copies -/

/-- A replay whose channels complete from copies of programs. -/
structure Console where
  replay : Replay
  /-- The copy that a channel completes from. -/
  completer : Channel → Option Program
  /-- What completed at the prompt before, while a line is read there. -/
  former : Option (Option Program)

namespace Console

def begin (options : Options) (file : Option String) (script : List ScriptItem)
    (surroundings : Surroundings) : Console :=
  ⟨.begin options file script surroundings, fun _ => none, none⟩

/-- When a line is about to be read at the prompt, a copy of the program is put in place. -/
def install (c : Console) : Console :=
  match c.former, c.replay.session.demand with
  | none, .readLine .basic _ =>
    { c with
      completer := Function.update c.completer .basic (some c.replay.session.machine.listing)
      former := some (c.completer .basic) }
  | _, _ => c

/-- When a line has been read, what completed at the prompt before is put back. -/
def restore (c : Console) : Console :=
  match c.former with
  | some former => { c with completer := Function.update c.completer .basic former, former := none }
  | none => c

/-- Meets the next demand of the session, and answers a request for a completion from the copy. -/
def step [PowerRoutine] (c : Console) : List LogEntry × Console :=
  let c := c.install
  let (log, next) := c.replay.step
  match c.replay.session.demand, c.replay.script with
  | .readLine channel _, .tab buffer :: _ =>
    ([.tab channel buffer ((c.completer channel).bind fun p => p.complete? buffer)],
      { c with replay := next })
  | .readLine _ _, .interrupt :: _ => (log, { c with replay := next })
  | .readLine _ _, _ => (log, ({ c with replay := next } : Console).restore)
  | _, _ => (log, { c with replay := next })

def run [PowerRoutine] : Nat → Console → List LogEntry × Console
  | 0, c => ([], c)
  | n + 1, c =>
    let (first, next) := c.step
    let (others, last) := run n next
    (first ++ others, last)

variable {c : Console}

/-- A copy is there only while a line is read at the prompt, and then it is the program. -/
structure Fresh (c : Console) : Prop where
  others : ∀ channel, channel ≠ .basic → c.completer channel = none
  apart : c.former = none → c.completer .basic = none
  reading : ∀ former, c.former = some former → former = none ∧
    (∃ prompt, c.replay.session.demand = .readLine .basic prompt) ∧
    c.completer .basic = some c.replay.session.machine.listing

theorem replay_install (c : Console) : c.install.replay = c.replay := by
  unfold install
  split <;> rfl

theorem replay_restore (c : Console) : c.restore.replay = c.replay := by
  unfold restore
  split <;> rfl

theorem fresh_begin (options : Options) (file : Option String) (script : List ScriptItem)
    (surroundings : Surroundings) : (begin options file script surroundings).Fresh where
  others _ _ := rfl
  apart _ := rfl
  reading _ h := by cases h

namespace Fresh

theorem install (h : c.Fresh) : c.install.Fresh ∧ (c.install.former = none ↔
    ∀ prompt, c.replay.session.demand ≠ .readLine .basic prompt) := by
  unfold Console.install
  split
  · rename_i prompt hformer hdemand
    refine ⟨⟨fun channel hchannel => ?_, by simp, fun former hformer => ?_⟩, ?_⟩
    · exact (Function.update_of_ne hchannel _ _).trans (h.others channel hchannel)
    · cases hformer
      exact ⟨h.apart ‹_›, ⟨prompt, hdemand⟩, by simp only [Function.update_self]⟩
    · simp [hdemand]
  · rename_i hnot
    refine ⟨h, fun hformer prompt hdemand => hnot prompt hformer hdemand, fun hdemand => ?_⟩
    cases hformer : c.former with
    | none => rfl
    | some former =>
      obtain ⟨_, ⟨prompt, hreading⟩, _⟩ := h.reading former hformer
      exact absurd hreading (hdemand prompt)

theorem of_apart (h : c.Fresh) (hformer : c.former = none) (r : Replay) :
    ({ c with replay := r } : Console).Fresh where
  others := h.others
  apart := h.apart
  reading former hsome := by cases hformer.symm.trans hsome

theorem of_reading (h : c.Fresh) {r : Replay}
    (hdemand : r.session.demand = c.replay.session.demand)
    (hlisting : r.session.machine.listing = c.replay.session.machine.listing) :
    ({ c with replay := r } : Console).Fresh where
  others := h.others
  apart := h.apart
  reading former hformer := by
    rw [hdemand, hlisting]
    exact h.reading former hformer

theorem restore (h : c.Fresh) (r : Replay) : ({ c with replay := r } : Console).restore.Fresh := by
  unfold Console.restore
  dsimp only
  split
  · rename_i former hformer
    obtain ⟨rfl, _, _⟩ := h.reading former hformer
    refine ⟨fun channel hchannel => ?_, fun _ => by simp only [Function.update_self], by simp⟩
    exact (Function.update_of_ne hchannel _ _).trans (h.others channel hchannel)
  · exact h.of_apart ‹_› r

theorem answer (h : c.Fresh) {channel : Channel} {prompt : String}
    (hdemand : c.replay.session.demand = .readLine channel prompt) (buffer : String) :
    ((c.install.completer channel).bind fun p => p.complete? buffer) =
      c.replay.session.complete? buffer := by
  obtain ⟨hfresh, hformer⟩ := h.install
  rw [Session.complete?_of_demand hdemand]
  split
  · rename_i hchannel
    subst hchannel
    cases hsaved : c.install.former with
    | none => exact absurd hdemand (hformer.mp hsaved prompt)
    | some former =>
      obtain ⟨_, _, hcopy⟩ := hfresh.reading former hsaved
      rw [hcopy, replay_install]
      rfl
  · rename_i hchannel
    rw [hfresh.others channel hchannel]
    rfl

/-- One step completes from the copy as the session does from its program, and the copy stays
fresh. -/
theorem step [PowerRoutine] (h : c.Fresh) :
    c.step.1 = c.replay.step.1 ∧ c.step.2.replay = c.replay.step.2 ∧ c.step.2.Fresh := by
  obtain ⟨hfresh, hformer⟩ := h.install
  have hapart (hno : ∀ prompt, c.replay.session.demand ≠ .readLine .basic prompt) :
      ({ c.install with replay := c.replay.step.2 } : Console).Fresh :=
    hfresh.of_apart (hformer.mpr hno) _
  unfold Console.step
  simp only [replay_install]
  cases hdemand : c.replay.session.demand with
  | perform _ | readFile _ | advance | nothing => exact ⟨rfl, rfl, hapart (by simp [hdemand])⟩
  | readLine channel prompt =>
    cases hscript : c.replay.script with
    | nil => exact ⟨rfl, by rw [Console.replay_restore], hfresh.restore _⟩
    | cons item rest =>
      cases item with
      | reading what => exact ⟨rfl, by rw [Console.replay_restore], hfresh.restore _⟩
      | interrupt =>
        have hstep := Replay.step_eq_of_passes (.readInterrupted hdemand hscript)
        refine ⟨rfl, rfl, hfresh.of_reading ?_ ?_⟩
        · rw [hstep, replay_install]
          rfl
        · rw [hstep, replay_install]
          rfl
      | tab buffer =>
        have hstep := Replay.step_eq_of_passes (.tab hdemand hscript)
        refine ⟨?_, rfl, hfresh.of_reading ?_ ?_⟩
        · rw [hstep]
          exact congrArg (fun answer => [LogEntry.tab channel buffer answer])
            (h.answer hdemand buffer)
        · rw [hstep, replay_install]
        · rw [hstep, replay_install]

/-- However far it goes, a session that completes from copies does what the session itself does. -/
theorem run [PowerRoutine] (h : c.Fresh) (n : Nat) : (c.run n).1 = (c.replay.run n).1 ∧
    (c.run n).2.replay = (c.replay.run n).2 ∧ (c.run n).2.Fresh := by
  induction n generalizing c with
  | zero => exact ⟨rfl, rfl, h⟩
  | succ n ih =>
    obtain ⟨hlog, hreplay, hfresh⟩ := h.step
    obtain ⟨hlogs, hreplays, hfresh'⟩ := ih hfresh
    rw [hreplay] at hlogs hreplays
    rw [Console.run, Replay.run_succ, ← hlog, ← hlogs, ← hreplays]
    exact ⟨rfl, rfl, hfresh'⟩

end Fresh

end Console

/-! ## Submitting what is recalled -/

namespace Session

variable {s : Session}

theorem prompting_of_basic {prompt : String} (h : s.demand = .readLine .basic prompt) :
    s.activity = .prompting ∧ s.outbox = [] ∧ prompt = "" := by
  unfold demand at h
  split at h
  · cases h
  · rename_i houtbox
    cases hactivity : s.activity <;> simp [hactivity] at h
    exact ⟨rfl, houtbox, h⟩

/-- A stored text that is not too long is stored again, and the program is the same. -/
theorem takeLine_source (hfaithful : s.machine.listing.Faithful) (houtbox : s.outbox = [])
    {number : LineNumber} {text : String} (htext : s.machine.listing.source? number = some text)
    (hsize : text.utf8ByteSize ≤ maxLineBytes) :
    (s.takeLine text).machine = s.machine ∧
      (s.takeLine text).outbox.head? = some (.remember .basic text) := by
  obtain ⟨entry, hget, rfl⟩ := Option.map_eq_some_iff.mp htext
  have henter := hfaithful.enter_source (Program.get?_eq_some_iff.mp hget).1
  simp [takeLine, Nat.not_lt.mpr hsize, Machine.enter, henter, turnTo, houtbox]

end Session

section

variable [PowerRoutine]

namespace Replay

variable {r : Replay}

theorem tab_of_step {channel : Channel} {buffer : String} {answer : Option String}
    (h : r.step.1 = [.tab channel buffer answer]) :
    ∃ prompt rest, r.session.demand = .readLine channel prompt ∧ r.script = .tab buffer :: rest ∧
      answer = r.session.complete? buffer ∧ r.step.2 = { r with script := rest } := by
  have hpasses := r.passes_step
  generalize r.step.1 = log at hpasses h
  generalize r.step.2 = next at hpasses ⊢
  cases hpasses with
  | @tab _ prompt _ rest hdemand hscript =>
    cases h
    exact ⟨prompt, rest, hdemand, hscript, rfl, rfl⟩
  | writeFails _ _ | writeInterrupted _ _ _ | written _ _ _ | performed _ _ | readEnd _ _ | read _ _
  | readInterrupted _ _ | fileRead _ | advances _ | rests _ => cases h

/-- Until the line is there, a reading notes requests to interrupt and does no more. -/
theorem run_of_unread {channel : Channel} {prompt : String}
    (hdemand : r.session.demand = .readLine channel prompt) {between rest : List ScriptItem}
    (hscript : r.script = between ++ rest)
    (hbetween : ∀ item ∈ between, ∀ what, item ≠ .reading what) :
    ∃ interrupted, (r.run between.length).2 =
      { r with session := { r.session with interrupted := interrupted }, script := rest } := by
  induction between generalizing r with
  | nil =>
    refine ⟨r.session.interrupted, ?_⟩
    rw [← List.nil_append rest, ← hscript]
    rfl
  | cons item between ih =>
    obtain ⟨hitem, hothers⟩ := List.forall_mem_cons.mp hbetween
    rw [List.length_cons, run_succ]
    cases item with
    | reading what => exact absurd rfl (hitem what)
    | interrupt =>
      rw [step_eq_of_passes (.readInterrupted hdemand hscript)]
      exact ih (r := { r with session := r.session.interrupt, script := between ++ rest }) hdemand
        rfl hothers
    | tab buffer =>
      rw [step_eq_of_passes (.tab hdemand hscript)]
      exact ih (r := { r with script := between ++ rest }) hdemand rfl hothers

/-- While a line is read, all changes that were asked for are made. -/
theorem listing_of_demand (options : Options) (file : Option String) (script : List ScriptItem)
    (surroundings : Surroundings) (n : Nat) {channel : Channel} {prompt : String} :
    let after := (begin options file script surroundings).run n
    after.2.session.demand = .readLine channel prompt →
      after.2.session.machine.listing =
        Program.empty.changes (surroundings.folder.asked file after.1) := by
  intro after hdemand
  obtain ⟨made, hlisting, hasked⟩ := listing_begin_run options file script surroundings n
  have hopening : ∀ name, after.2.session.activity ≠ .opening name := by
    intro name hactivity
    unfold Session.demand at hdemand
    split at hdemand
    · cases hdemand
    · simp [hactivity] at hdemand
  rw [hasked, Session.outstanding_of_not_opening hopening, List.append_nil]
  exact hlisting

/-- A stored line that is recalled and submitted in the same reading leaves the program as it is. -/
theorem run_of_resubmitted {prompt text buffer : String} {number : LineNumber}
    (hdemand : r.session.demand = .readLine .basic prompt)
    (hfaithful : r.session.machine.listing.Faithful)
    (htext : r.session.machine.listing.source? number = some text)
    (hsize : text.utf8ByteSize ≤ Session.maxLineBytes) {between rest : List ScriptItem}
    (hbetween : ∀ item ∈ between, ∀ what, item ≠ .reading what)
    (hscript : r.script = .tab buffer :: between ++ .reading (.line text) :: rest) :
    let last := (r.run (between.length + 1)).2
    last.step.1 = [.read .basic "" (.line text)] ∧
      last.step.2.session.machine = r.session.machine ∧
      last.step.2.session.outbox.head? = some (.remember .basic text) := by
  intro last
  have htab : ∀ item ∈ ScriptItem.tab buffer :: between, ∀ what, item ≠ .reading what :=
    List.forall_mem_cons.mpr ⟨by simp, hbetween⟩
  obtain ⟨interrupted, hlast⟩ := run_of_unread hdemand hscript htab
  have hlast' : last = { r with
      session := { r.session with interrupted := interrupted }
      script := .reading (.line text) :: rest } := hlast
  obtain ⟨hactivity, houtbox, rfl⟩ := Session.prompting_of_basic hdemand
  have hread : last.session.demand = .readLine .basic "" := by
    rw [hlast']
    exact hdemand
  have hitem : last.script = .reading (.line text) :: rest := by rw [hlast']
  have hreceive : last.session.receive (.line text) = last.session.takeLine text := by
    rw [hlast']
    simp only [Session.receive, hactivity]
  have hstep := step_eq_of_passes (.read hread hitem)
  have htake := Session.takeLine_source (s := last.session) (by rw [hlast']; exact hfaithful)
    (by rw [hlast']; exact houtbox) (by rw [hlast']; exact htext) hsize
  rw [hstep, hreceive]
  refine ⟨rfl, ?_, htake.2⟩
  rw [htake.1, hlast']

end Replay

/-- At every point of a session, a request for a completion at the prompt is answered with the text
of the line whose number is typed, as it stands after all changes that were asked for so far, and
with nothing if there is no such line; on the other channels nothing is completed. This holds of the
copy that is put in place for each reading, and the session completes the same. What was recalled,
submitted in the same reading, leaves the program as it is, if it is not too long. -/
theorem Console.tab_recalls_current_line (options : Options) (file : Option String)
    (script : List ScriptItem) (surroundings : Surroundings) (n : Nat) :
    let r := Replay.begin options file script surroundings
    let c := begin options file script surroundings
    let p := Program.empty.changes (surroundings.folder.asked file (r.run n).1)
    (c.run n).1 = (r.run n).1 ∧ (c.run n).2.step.1 = (r.run n).2.step.1 ∧
    ∀ channel buffer answer, (r.run n).2.step.1 = [.tab channel buffer answer] →
      (r.run n).2.session.machine.listing = p ∧
      (channel = .basic → ∀ text, answer = some text ↔ ∃ number : LineNumber,
        Decimal.UnsignedNumeral (Text.trim buffer.toList) number.toNat ∧
          p.source? number = some text) ∧
      (channel ≠ .basic → answer = none) ∧
      ∀ text between rest, answer = some text → text.utf8ByteSize ≤ Session.maxLineBytes →
        (∀ item ∈ between, ∀ what, item ≠ .reading what) →
        (r.run n).2.script = .tab buffer :: between ++ .reading (.line text) :: rest →
        let last := (r.run (n + (between.length + 1))).2
        last.step.1 = [.read .basic "" (.line text)] ∧
          last.step.2.session.machine.listing = p ∧
          last.step.2.session.outbox.head? = some (.remember .basic text) := by
  intro r c p
  obtain ⟨hlog, hreplay, hfresh⟩ := (fresh_begin options file script surroundings).run n
  refine ⟨hlog, hfresh.step.1.trans (by rw [hreplay]; rfl), fun channel buffer answer htab => ?_⟩
  obtain ⟨prompt, _, hdemand, _, rfl, _⟩ := Replay.tab_of_step htab
  have hlisting := Replay.listing_of_demand options file script surroundings n hdemand
  have hanswer := Session.complete?_of_demand hdemand buffer
  refine ⟨hlisting, fun hchannel text => ?_, fun hchannel => ?_,
    fun text between rest htext hsize hbetween hscript => ?_⟩
  · rw [hanswer, if_pos hchannel, hlisting]
    exact Program.complete?_eq_some_iff
  · rw [hanswer, if_neg hchannel]
  · have hbasic : channel = .basic := by
      by_contra hchannel
      rw [hanswer, if_neg hchannel] at htext
      cases htext
    subst hbasic
    rw [hanswer, if_pos rfl] at htext
    obtain ⟨number, _, hsource⟩ := Program.complete?_eq_some_iff.mp htext
    have hfaithful : (r.run n).2.session.machine.listing.Faithful := by
      rw [hlisting]
      exact Program.faithful_changes _
    obtain ⟨hread, hmachine, houtbox⟩ :=
      Replay.run_of_resubmitted hdemand hfaithful hsource hsize hbetween hscript
    rw [Replay.run_add_snd]
    exact ⟨hread, by rw [hmachine]; exact hlisting, houtbox⟩

end

/-- A line that was edited twice is recalled by its number with a sign and white space around it,
and submitted again behind a stray request to interrupt. -/
theorem Console.tab_recalls_current_line_after_edits :
    let script : List ScriptItem := [.reading (.line "10 END"), .reading (.line "10 PRINT 1\n"),
      .tab "\u00a0+010 ", .interrupt, .reading (.line "10 PRINT 1")]
    let r := Replay.begin {} none script ⟨⟨[]⟩, [], none⟩
    let c := Console.begin {} none script ⟨⟨[]⟩, [], none⟩
    (r.run 5).2.step.1 = [.tab .basic "\u00a0+010 " (some "10 PRINT 1")] ∧
      (c.run 5).2.step.1 = (r.run 5).2.step.1 ∧
      (r.run 5).2.session.machine.listing.sources = ["10 PRINT 1"] ∧
      (r.run 7).2.step.2.session.machine.listing = (r.run 5).2.session.machine.listing := by
  intro script r c
  obtain ⟨_, hcopy, htab⟩ := tab_recalls_current_line {} none script ⟨⟨[]⟩, [], none⟩ 5
  have hstep : (r.run 5).2.step.1 = [.tab .basic "\u00a0+010 " (some "10 PRINT 1")] := by cbv
  obtain ⟨hlisting, _, _, hsubmit⟩ := htab _ _ _ hstep
  obtain ⟨_, hsame, _⟩ := hsubmit "10 PRINT 1" [.interrupt] [] rfl (by decide) (by simp) (by cbv)
  exact ⟨hstep, hcopy, by cbv, hsame.trans hlisting.symm⟩

end LineBasic
