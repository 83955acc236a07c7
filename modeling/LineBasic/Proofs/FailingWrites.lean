import Mathlib
import LineBasic.Proofs.Driving

/-!
# Writes that fail

A write that fails ends a conversation where it stands, whichever of its many lines it was to show,
and however deep in the calls and loops of the driver. Up to this write all goes as without the
failure; the write itself is logged as failed, and nothing happens after it.
-/
namespace LineBasic

namespace Driver

open Talk (heeds_bind heeds_perform heeds_readLine heeds_readFile heeds_takeInterrupt)

/-! ## No place of the driver passes over a failed write -/

theorem heeds_showOutline (options : Options) (p : Program) :
    (showOutline options p).run.Heeds := by
  unfold showOutline
  split
  · exact heeds_perform _
  · trivial

theorem heeds_openFile (options : Options) (m : Machine) (name : String) :
    (openFile options m name).run.Heeds := by
  refine heeds_bind (heeds_readFile name) fun contents => ?_
  cases contents with
  | ok lines => exact heeds_bind (heeds_showOutline options _) fun _ => trivial
  | error fault => exact heeds_bind (heeds_perform _) fun _ => trivial

theorem heeds_readInput (name : String) (rounds : Nat) (m : Machine) :
    (readInput name rounds m).run.Heeds := by
  induction rounds generalizing m with
  | zero => trivial
  | succ rounds ih =>
    refine heeds_bind (heeds_readLine _ _ _) fun what => ?_
    cases what with
    | line text =>
      dsimp only
      split
      · exact heeds_bind (heeds_perform _) fun _ => trivial
      · exact heeds_bind (heeds_perform _) fun _ => ih _
    | signal signal =>
      cases signal with
      | interrupt =>
        exact heeds_bind (heeds_perform _) fun _ =>
          heeds_bind (heeds_perform _) fun _ => trivial
      | breakSignal | continueSignal | suspend | quit => trivial
    | endOfFile => trivial

section

variable [PowerRoutine]

theorem heeds_batch (awaited : Option String) (n : Nat) (steps : Steps) :
    (batch awaited n steps).run.Heeds := by
  induction n generalizing awaited steps with
  | zero => trivial
  | succ n ih =>
    rw [batch]
    split
    · trivial
    · exact heeds_bind (heeds_perform _) fun _ => ih _ _
    · exact heeds_bind (heeds_perform _) fun _ => ih _ _
    · exact heeds_bind (heeds_perform _) fun _ => trivial
    · exact ih _ _
    · trivial
    · exact ih _ _

theorem heeds_drive (options : Options) (rounds : Nat) (m : Machine) :
    (drive options rounds m).run.Heeds := by
  induction rounds generalizing m with
  | zero => trivial
  | succ rounds ih =>
    refine heeds_bind heeds_takeInterrupt fun interrupted => ?_
    cases interrupted with
    | true => exact heeds_bind (heeds_perform _) fun _ => trivial
    | false =>
      refine heeds_bind (heeds_batch _ _ _) fun shown => ?_
      obtain ⟨_ | _ | name, m'⟩ := shown
      · trivial
      · dsimp only
        split
        · trivial
        · exact ih m'
      · refine heeds_bind (heeds_readInput name rounds m') fun answered => ?_
        obtain ⟨_ | _, m''⟩ := answered
        · exact heeds_bind (heeds_perform _) fun _ => trivial
        · exact ih m''

theorem heeds_obey (options : Options) (rounds : Nat) (m : Machine) (c : Command) :
    (obey options rounds m c).run.Heeds := by
  cases c with
  | QUIT | CLEAR => trivial
  | RUN => exact ⟨fun _ => heeds_drive options rounds m.start, trivial⟩
  | LOAD =>
    refine heeds_bind (heeds_readLine _ _ _) fun what => ?_
    cases what with
    | line name => exact heeds_openFile options m _
    | signal _ | endOfFile => trivial
  | LIST =>
    refine heeds_bind ?_ fun _ => trivial
    induction m.listing.sources with
    | nil => trivial
    | cons source sources ih => exact heeds_bind (heeds_perform _) fun _ => ih
  | HELP => exact heeds_bind (heeds_perform _) fun _ => trivial

theorem heeds_converse (options : Options) (rounds : Nat) (m : Machine) :
    (converse options rounds m).run.Heeds := by
  induction rounds generalizing m with
  | zero => trivial
  | succ rounds ih =>
    refine heeds_bind (heeds_readLine _ _ _) fun what => ?_
    cases what with
    | line text =>
      dsimp only
      split
      · exact heeds_bind (heeds_perform _) fun _ => ih m
      · split
        · exact ih _
        · exact heeds_bind (heeds_perform _) fun _ => ih _
        · exact heeds_bind (heeds_perform _) fun _ =>
            heeds_bind (heeds_showOutline options _) fun _ => ih _
        · exact heeds_bind (heeds_perform _) fun _ =>
            heeds_bind (heeds_showOutline options _) fun _ => ih _
        · refine heeds_bind (heeds_perform _) fun _ => ?_
          split
          · trivial
          · exact heeds_bind (heeds_obey options rounds _ _) fun _ =>
              heeds_bind (heeds_perform _) fun _ => ih _
    | signal _ | endOfFile => trivial

theorem heeds_run (options : Options) (file : Option String) (rounds : Nat) :
    (run options file rounds).run.Heeds := by
  have hsetUp : (setUp options file).run.Heeds := by
    cases file with
    | some name => exact heeds_openFile options .new name
    | none => trivial
  exact heeds_bind hsetUp fun _ => heeds_bind (heeds_perform _) fun _ =>
    heeds_converse options rounds _

/-! ## Conversations with a failing write -/

/-- Take a conversation in which no write fails, and the same one with its `k`-th write failing, and
follow both for any number of rounds. If the first one makes this write, then the second one ends
with its failure at this moment: its log is what was logged before the write, and the failure of the
write on its channel, and the script is left as it stands. Otherwise the second one goes as the
first one does. Whichever write fails, what the driver logs is what its session logs, and both end
together, with as much of the script left. -/
theorem failing_write_ends_session (options : Options) (file : Option String)
    (script : List ScriptItem) (folder : Folder) (interruptAt : List Nat) (k : Nat) :
    let free : Surroundings := ⟨folder, interruptAt, none⟩
    let whole := play options file script free
    let failing := play options file script ⟨folder, interruptAt, some k⟩
    (∀ rounds, 0 < k → k ≤ (whole rounds).log.countP LogEntry.isWrite →
      ∃ before channel text next moment last,
        before ++ [.performed (.write channel text)] <+: (whole rounds).log ∧
        before.countP LogEntry.isWrite + 1 = k ∧
        (run options file rounds).run.Reaches (.begin script free) before
          (.ask (.perform (.write channel text)) next) moment ∧
        failing rounds = ⟨before ++ [.writeFailed channel], some (.error .refused), last⟩ ∧
        last.script = moment.script) ∧
    (∀ rounds, k = 0 ∨ (whole rounds).log.countP LogEntry.isWrite < k →
      (failing rounds).log = (whole rounds).log ∧
      (failing rounds).result = (whole rounds).result ∧
      (failing rounds).last.script = (whole rounds).last.script) ∧
    ∀ failAt : Option Nat,
      let played := play options file script ⟨folder, interruptAt, failAt⟩
      let r := Replay.begin options file script ⟨folder, interruptAt, failAt⟩
      (∀ log unread, (∃ last, r.Ends log last ∧ last.script = unread) ↔
        ∃ rounds result last, last.script = unread ∧ played rounds = ⟨log, some result, last⟩) ∧
      (∀ n, ∃ rounds, (r.run n).1 <+: (played rounds).log) ∧
      ∀ rounds, ∃ n, (r.run n).1 = (played rounds).log := by
  intro free whole failing
  have hcount (rounds : Nat) :
      (whole rounds).last.writes = (whole rounds).log.countP LogEntry.isWrite := by
    rw [show (whole rounds).last.writes = _ from Dialogue.writes_play _ rfl]
    exact Nat.zero_add _
  refine ⟨fun rounds hpos hk => ?_, fun rounds hk => ?_, fun failAt => ⟨?_, ?_, ?_⟩⟩
  · rw [← hcount] at hk
    obtain ⟨before, channel, text, next, moment, hlog, hreach, hmoment, hfailed⟩ :=
      (heeds_run options file rounds).play_failingAt rfl hpos hk
    refine ⟨before, channel, text, next, moment, _, hlog, ?_, hreach, hfailed, rfl⟩
    have hwrites := hreach.writes_eq rfl
    rw [hwrites] at hmoment
    exact (congrArg (· + 1) (Nat.zero_add _)).symm.trans hmoment
  · rw [← hcount] at hk
    have hsame : failing rounds =
        ⟨(whole rounds).log, (whole rounds).result, (whole rounds).last.failingAt k⟩ :=
      (run options file rounds).run.play_failingAt (s := .begin script free) rfl fun hmade => by
        have hearly : k ≤ (whole rounds).last.writes := hmade.2
        have hpos : 0 < k := hmade.1
        omega
    rw [hsame]
    exact ⟨rfl, rfl, rfl⟩
  · exact ends_iff options file script _
  · exact exists_log_run_prefix options file script _
  · exact exists_log_run_eq options file script _

end

/-- The write that fails here is the one that refuses a value, in the loop that asks for it. -/
theorem failing_redo_ends_session :
    let script : List ScriptItem := ["10 INPUT A", "RUN", "x", "1"].map
      fun text => .reading (.line text)
    let failing := play {} none script ⟨⟨[]⟩, [], some 2⟩ 4
    2 ≤ (play {} none script ⟨⟨[]⟩, [], none⟩ 4).log.countP LogEntry.isWrite ∧
      failing.result = some (.error .refused) ∧
      failing.log = [.performed Session.ready, .read .basic "" (.line "10 INPUT A"),
        .performed (.remember .basic "10 INPUT A"), .read .basic "" (.line "RUN"),
        .performed (.remember .basic "RUN"), .read .input "A? " (.line "x"),
        .writeFailed .input] ∧
      failing.last.script = [.reading (.line "1")] := by
  intro script failing
  have hmade : 2 ≤ (play {} none script ⟨⟨[]⟩, [], none⟩ 4).log.countP LogEntry.isWrite := by
    cbv
  obtain ⟨_, _, _, _, _, _, _, _, _, hfailed, _⟩ :=
    (failing_write_ends_session {} none script ⟨[]⟩ [] 2).1 4 (by decide) hmade
  exact ⟨hmade, congrArg Played.result hfailed, by cbv, by cbv⟩

end Driver

end LineBasic
