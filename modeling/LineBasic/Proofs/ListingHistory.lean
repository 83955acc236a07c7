import Mathlib
import LineBasic.Proofs.Conversations
import LineBasic.Proofs.FileBytes
import LineBasic.Proofs.Isolation

/-!
# The program of a session and its history

What is held as the program at any point of a session is told by the log alone: by the lines read at
the prompt that edit the program or drop it, and by the names read for files that can be loaded. All
else that happens, runs among it, leaves the program as it is. Between the reading of a name and the
loading of the file nothing happens; there the changes that the file stands for are outstanding.
-/
namespace LineBasic

/-! ## Changes by what happened -/

/-- The change that opening a file makes: its lines replace the program, if they can be read. -/
def Folder.opened (folder : Folder) (name : String) : List Change :=
  match folder.read name with
  | .ok lines => [.load lines]
  | .error _ => []

def typedChanges (text : String) : List Change :=
  if text.utf8ByteSize ≤ Session.maxLineBytes then
    match Line.ofText text with
    | .numbered _ _ => [.enter text]
    | .delete _ => [.enter text]
    | .command .CLEAR => [.clear]
    | _ => []
  else []

def LogEntry.changes (folder : Folder) : LogEntry → List Change
  | .read .basic _ (.line text) => typedChanges text
  | .read .load _ (.line name) => folder.opened (String.ofList (Text.trim name.toList))
  | _ => []

/-- The changes that a session is asked for, by its first file and by what happened since. -/
def Folder.asked (folder : Folder) (file : Option String) (log : List LogEntry) : List Change :=
  file.toList.flatMap folder.opened ++ log.flatMap (LogEntry.changes folder)

/-- The changes that were asked for and are not made yet. -/
def Session.outstanding (folder : Folder) (s : Session) : List Change :=
  match s.activity with
  | .opening name => folder.opened name
  | _ => []

theorem typedChanges_of_isEdit {text : String} (hsize : text.utf8ByteSize ≤ Session.maxLineBytes)
    (hedit : (Line.ofText text).isEdit = true) : typedChanges text = [.enter text] := by
  rw [typedChanges, if_pos hsize]
  cases hline : Line.ofText text with
  | numbered _ _ | delete _ => rfl
  | command _ | blank | invalid _ =>
    rw [hline] at hedit
    cases hedit

theorem Folder.mem_opened_iff {folder : Folder} {name : String} {lines : List String} :
    .load lines ∈ folder.opened name ↔ ∃ contents, folder.files.lookup name = some contents ∧
      Text.lines (octets contents) = lines.map fun line => octets line.toUTF8 := by
  have hread : .load lines ∈ folder.opened name ↔ folder.read name = .ok lines := by
    unfold opened
    cases folder.read name with
    | ok found => simp [eq_comm]
    | error fault => simp
  rw [hread, read]
  cases folder.files.lookup name with
  | some contents => simp [fileLines_eq_ok_iff]
  | none =>
    dsimp only
    split_ifs <;> simp

namespace Session

variable {s s' : Session}

theorem outstanding_of_opening {name : String} (h : s.activity = .opening name) {folder : Folder} :
    s.outstanding folder = folder.opened name := by
  simp only [outstanding, h]

theorem outstanding_of_not_opening (h : ∀ name, s.activity ≠ .opening name) {folder : Folder} :
    s.outstanding folder = [] := by
  unfold outstanding
  split
  · exact absurd ‹_› (h _)
  · rfl

/-- What is read changes the listing as its log entry says, at once or by a file to be opened. -/
theorem Hears.listing_changes {channel : Channel} {prompt : String} {what : Reading}
    (h : s.Hears channel prompt what s') (folder : Folder) :
    ∃ made, s'.machine.listing = s.machine.listing.changes made ∧
      s.outstanding folder ++ (LogEntry.read channel prompt what).changes folder =
        made ++ s'.outstanding folder := by
  cases h with
  | tooLong hactivity hsize =>
    refine ⟨[], rfl, ?_⟩
    simp [outstanding, hactivity, LogEntry.changes, typedChanges, turnTo, Nat.not_le.mpr hsize]
  | @edited text hactivity hsize hedit =>
    refine ⟨[.enter text], rfl, ?_⟩
    simp [outstanding, hactivity, LogEntry.changes, typedChanges_of_isEdit hsize hedit, turnTo]
  | malformed hactivity hsize hline | blank hactivity hsize hline =>
    refine ⟨[], rfl, ?_⟩
    simp [outstanding, hactivity, LogEntry.changes, typedChanges, turnTo, hsize, hline]
  | @commanded text c hactivity hsize hline =>
    cases c with
    | CLEAR =>
      refine ⟨[.clear], rfl, ?_⟩
      simp [outstanding, hactivity, LogEntry.changes, typedChanges, turnTo, obey, hsize, hline]
    | RUN | LOAD | LIST | HELP | QUIT =>
      refine ⟨[], rfl, ?_⟩
      simp [outstanding, hactivity, LogEntry.changes, typedChanges, turnTo, obey, hsize, hline]
  | left hactivity hwhat | unnamed hactivity hwhat =>
    refine ⟨[], rfl, ?_⟩
    cases what with
    | line text => exact absurd rfl (hwhat text)
    | signal _ | endOfFile => simp [outstanding, hactivity, LogEntry.changes, turnTo]
  | named hactivity =>
    refine ⟨[], rfl, ?_⟩
    simp [outstanding, hactivity, LogEntry.changes, turnTo, takeFileName]
  | @answered _ text hactivity _ =>
    have hdrives : Operation.drives (.input text) = true := rfl
    refine ⟨[], s.machine.listing_perform_of_drives hdrives, ?_⟩
    simp [outstanding, hactivity, LogEntry.changes, turnTo]
  | refused hactivity _ | cancelled hactivity | abandoned hactivity _ =>
    refine ⟨[], rfl, ?_⟩
    simp [outstanding, hactivity, LogEntry.changes, turnTo, breakOff]

theorem Drives.listing_eq [PowerRoutine] (h : s.Drives s') (folder : Folder) :
    s'.machine.listing = s.machine.listing ∧
      s.outstanding folder = [] ∧ s'.outstanding folder = [] := by
  cases h with
  | breaks hactivity _ | begins hactivity _ => exact ⟨rfl, by simp [outstanding, hactivity], rfl⟩
  | pulls hactivity =>
    have hdrives : Operation.drives .step = true := rfl
    have hstep := s.machine.listing_perform_of_drives hdrives
    refine ⟨?_, by simp [outstanding, hactivity], ?_⟩
    · cases s.machine.step.1 <;> exact hstep
    · cases s.machine.step.1 <;> rfl

theorem takeFile_changes (s : Session) (folder : Folder) (name : String) :
    (s.takeFile (folder.read name)).machine.listing =
        s.machine.listing.changes (folder.opened name) ∧
      (s.takeFile (folder.read name)).outstanding folder = [] := by
  unfold Folder.opened
  cases folder.read name <;> exact ⟨rfl, rfl⟩

theorem Orderly.outstanding_of_demand [PowerRoutine] (h : s.Orderly) {e : Effect}
    (hneed : s.demand = .perform e) (folder : Folder) : s.outstanding folder = [] := by
  apply outstanding_of_not_opening
  intro name hactivity
  have hholds := h.holds
  obtain ⟨rest, houtbox⟩ := outbox_of_demand hneed
  rw [hactivity] at hholds
  cases houtbox.symm.trans hholds.2

end Session

/-! ## The program at every point of a session -/

variable [PowerRoutine]

namespace Replay

variable {r : Replay}

/-- In one step the listing changes by what was outstanding or has just been logged, and the rest of
it is outstanding then. -/
theorem listing_step (h : r.session.Orderly) :
    let folder := r.surroundings.folder
    ∃ made, r.step.2.session.machine.listing = r.session.machine.listing.changes made ∧
      r.session.outstanding folder ++ r.step.1.flatMap (LogEntry.changes folder) =
        made ++ r.step.2.session.outstanding folder := by
  intro folder
  have hpasses := r.passes_step
  generalize r.step.1 = log at hpasses ⊢
  generalize r.step.2 = next at hpasses ⊢
  cases hpasses with
  | writeFails hneed _ =>
    refine ⟨[], rfl, ?_⟩
    rw [h.outstanding_of_demand hneed]
    rfl
  | writeInterrupted _ _ _ | written _ _ _ | performed _ _ | readInterrupted _ _ | tab _ _
  | rests _ => exact ⟨[], rfl, List.append_nil _⟩
  | readEnd hneed _ | read hneed _ =>
    obtain ⟨_, hhears⟩ := Session.hears_receive hneed _
    simpa using hhears.listing_changes folder
  | @fileRead name hneed =>
    obtain ⟨_, hactivity⟩ := Session.opening_of_demand hneed
    obtain ⟨hlisting, hafter⟩ := r.session.takeFile_changes folder name
    refine ⟨folder.opened name, hlisting, ?_⟩
    rw [Session.outstanding_of_opening hactivity, hafter]
    rfl
  | advances hneed =>
    obtain ⟨_, hdrives⟩ := Session.drives_advance hneed
    obtain ⟨hlisting, hbefore, hafter⟩ := hdrives.listing_eq folder
    refine ⟨[], hlisting, ?_⟩
    rw [hbefore, hafter]
    rfl

theorem listing_run (h : r.session.Orderly) (n : Nat) :
    let folder := r.surroundings.folder
    ∃ made, (r.run n).2.session.machine.listing = r.session.machine.listing.changes made ∧
      r.session.outstanding folder ++ (r.run n).1.flatMap (LogEntry.changes folder) =
        made ++ (r.run n).2.session.outstanding folder := by
  induction n generalizing r with
  | zero => exact ⟨[], rfl, List.append_nil _⟩
  | succ n ih =>
    intro folder
    obtain ⟨first, hfirst, hsplit⟩ := listing_step h
    obtain ⟨others, hothers, hsplit'⟩ := ih (orderly_step h)
    rw [surroundings_step] at hsplit'
    refine ⟨first ++ others, ?_, ?_⟩
    · rw [run_succ, hothers, hfirst]
      exact (List.foldl_append ..).symm
    · rw [run_succ, List.flatMap_append, ← List.append_assoc, hsplit, List.append_assoc, hsplit',
        List.append_assoc]

/-- A session that opens a file has done so after one more step, of which nothing is logged. -/
theorem step_of_opening (h : r.session.Orderly) {name : String}
    (hactivity : r.session.activity = .opening name) :
    r.step.1 = [] ∧ ∀ other, r.step.2.session.activity ≠ .opening other := by
  have hholds := h.holds
  rw [hactivity] at hholds
  have hneed : r.session.demand = .readFile name := by
    simp [Session.demand, hholds.2, hactivity]
  rw [step_eq_of_passes (.fileRead hneed)]
  refine ⟨rfl, fun other => ?_⟩
  cases hread : r.surroundings.folder.read name <;> simp [Session.takeFile, Session.turnTo]

theorem listing_begin_run (options : Options) (file : Option String) (script : List ScriptItem)
    (surroundings : Surroundings) (n : Nat) :
    let folder := surroundings.folder
    let after := (begin options file script surroundings).run n
    ∃ made, after.2.session.machine.listing = Program.empty.changes made ∧
      folder.asked file after.1 = made ++ after.2.session.outstanding folder := by
  intro folder after
  have hbegin : (Session.begin options file).outstanding folder =
      file.toList.flatMap folder.opened := by
    cases file with
    | none => rfl
    | some name => simp [Session.begin, Session.outstanding]
  have hempty : (Session.begin options file).machine.listing = Program.empty := by
    cases file <;> rfl
  obtain ⟨made, hlisting, hsplit⟩ :=
    listing_run (r := begin options file script surroundings) (.begin options file) n
  refine ⟨made, ?_, ?_⟩
  · rw [← hempty]
    exact hlisting
  · rw [Folder.asked, ← hbegin]
    exact hsplit

/-- At every point of a session its program is what is left of the changes that the first file and
the log ask for, made one after the other on the empty program. Where the last of them is to load a
file that is not opened yet, it is missing; it is made in the next step, before anything else
happens. A file asks for a change just when it is there and each of its lines is UTF-8 text. -/
theorem listing_follows_log (options : Options) (file : Option String) (script : List ScriptItem)
    (surroundings : Surroundings) (n : Nat) :
    let folder := surroundings.folder
    let r := begin options file script surroundings
    let s := (r.run n).2.session
    let asked := folder.asked file (r.run n).1
    ((∀ name, s.activity ≠ .opening name) → s.machine.listing = Program.empty.changes asked) ∧
    (∀ name, s.activity = .opening name →
      (∃ made, asked = made ++ folder.opened name ∧
        s.machine.listing = Program.empty.changes made) ∧
      (r.run (n + 1)).1 = (r.run n).1 ∧
      (r.run (n + 1)).2.session.machine.listing = Program.empty.changes asked) ∧
    (∀ name lines, .load lines ∈ folder.opened name ↔
      ∃ contents, folder.files.lookup name = some contents ∧
        Text.lines (octets contents) = lines.map fun line => octets line.toUTF8) := by
  intro folder r s asked
  have hmade (k : Nat) (h : ∀ name, (r.run k).2.session.activity ≠ .opening name) :
      (r.run k).2.session.machine.listing =
        Program.empty.changes (folder.asked file (r.run k).1) := by
    obtain ⟨made, hlisting, hasked⟩ := listing_begin_run options file script surroundings k
    rw [hasked, Session.outstanding_of_not_opening h, List.append_nil]
    exact hlisting
  refine ⟨hmade n, fun name hactivity => ?_, fun name lines => Folder.mem_opened_iff⟩
  obtain ⟨hsilent, hnext⟩ := step_of_opening (orderly options file script surroundings n) hactivity
  have hlog : (r.run (n + 1)).1 = (r.run n).1 := by
    rw [run_concat, hsilent, List.append_nil]
  refine ⟨?_, hlog, ?_⟩
  · obtain ⟨made, hlisting, hasked⟩ := listing_begin_run options file script surroundings n
    refine ⟨made, ?_, hlisting⟩
    rw [Session.outstanding_of_opening hactivity] at hasked
    exact hasked
  · have hafter := hmade (n + 1) (by rw [run_concat]; exact hnext)
    rwa [hlog] at hafter

example :
    let folder : Folder := ⟨[("a", "10 LET X = 1\n".toUTF8)]⟩
    let script : List ScriptItem := ["20 END", "LOAD", " a ", "30 GOTO 10"].map
      fun text => .reading (.line text)
    let log : List LogEntry := [.performed Session.ready, .read .basic "" (.line "20 END"),
      .performed (.remember .basic "20 END"), .read .basic "" (.line "LOAD"),
      .performed (.remember .basic "LOAD"), .read .load "FILE? " (.line " a "),
      .performed Session.ready, .read .basic "" (.line "30 GOTO 10")]
    let r := (begin {} none script ⟨folder, [], none⟩).run 9
    r.1 = log ∧
      folder.asked none log = [.enter "20 END", .load ["10 LET X = 1"], .enter "30 GOTO 10"] ∧
      r.2.session.machine.listing.sources = ["10 LET X = 1", "30 GOTO 10"] :=
  ⟨by cbv, by decide +kernel, by cbv⟩

end Replay

end LineBasic
