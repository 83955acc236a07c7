import LineBasic.Machine.Steps
import LineBasic.Session.Dialogue

/-!
# The driver

The conversation of a session as one program with loops and calls, in which each line that is
written has its place. Nothing here catches a failed write, so from each of these places it ends
all the calls and loops around it.

A loop is given a number of rounds. The conversation may need more of them than any number, as a
program may run for ever.
-/
namespace LineBasic.Driver

open Session (maxLineBytes tell caution redo ready broken help)
open Talk

def report (e : Error) : Talk Unit :=
  perform (Session.report e)

def tellBreak : Talk Unit :=
  perform broken

variable (options : Options)

def showOutline (p : Program) : Talk Unit :=
  if options.tree then perform (.write .basic p.outline.render) else return

/-- Loads a file, or tells why it cannot be loaded. -/
def openFile (m : Machine) (name : String) : Talk Machine := do
  match ← readFile name with
  | .ok lines =>
    let m := m.load lines
    showOutline options m.listing
    return m
  | .error fault =>
    report fault.toError
    return m

/-- Asks for the value of a variable until a number is typed. Says whether one was. -/
def readInput (name : String) : Nat → Machine → Talk (Bool × Machine)
  | 0, _ => unfinished
  | rounds + 1, m => do
    match ← readLine .input (name ++ "? ") with
    | .line text =>
      match m.input text with
      | (true, m) =>
        perform (.remember .input text)
        return (true, m)
      | (false, m) =>
        perform redo
        readInput name rounds m
    | .signal .interrupt =>
      perform (.setBuffer .input "")
      perform (.cancel .input)
      return (false, m)
    | _ => return (false, m)

inductive BatchEnd
  | runOver
  /-- The value of a variable may be awaited. -/
  | paused (awaited : Option String)

/-- Shows a number of events at most. -/
def batch [PowerRoutine] (awaited : Option String) : Nat → Steps → Talk (BatchEnd × Machine)
  | 0, steps => return (.paused awaited, steps.machine)
  | n + 1, steps => do
    match steps.next with
    | (none, steps) => return (.paused awaited, steps.machine)
    | (some (.print text), steps) =>
      perform (tell text)
      batch awaited n steps
    | (some (.warning w), steps) =>
      perform (caution w)
      batch awaited n steps
    | (some (.failed e), steps) =>
      report e
      return (.runOver, steps.machine)
    | (some (.input name), steps) => batch (some name) n steps
    | (some .finished, steps) => return (.runOver, steps.machine)
    | (some _, steps) => batch awaited n steps

/-- Runs until the program ends, and looks for an interrupt before each batch of events. -/
def drive [PowerRoutine] : Nat → Machine → Talk Machine
  | 0, _ => unfinished
  | rounds + 1, m => do
    if ← takeInterrupt then
      tellBreak
      return m.interrupt
    else
      match ← batch none (max options.cycles 1) (.of m) with
      | (.runOver, m) => return m
      | (.paused (some name), m) =>
        match ← readInput name rounds m with
        | (true, m) => drive rounds m
        | (false, m) =>
          tellBreak
          return m.interrupt
      | (.paused none, m) => if m.phase = .idle then return m else drive rounds m

def obey [PowerRoutine] (rounds : Nat) (m : Machine) : Command → Talk Machine
  | .QUIT => return m
  | .RUN => do
    discard takeInterrupt
    drive options rounds m.start
  | .LOAD => do
    match ← readLine .load "FILE? " with
    | .line name => openFile options m (String.ofList (Text.trim name.toList))
    | _ => return m
  | .LIST => do
    m.listing.sources.forM fun source => perform (tell source)
    return m
  | .CLEAR => return m.clear
  | .HELP => do
    perform (tell help)
    return m

/-- Takes lines at the prompt until there are no more. -/
def converse [PowerRoutine] : Nat → Machine → Talk Unit
  | 0, _ => unfinished
  | rounds + 1, m => do
    match ← readLine .basic "" (fun buffer =>
        (Decimal.unsigned? (Text.trim buffer.toList)).bind m.listing.source?) with
    | .line text =>
      if maxLineBytes < text.utf8ByteSize then
        report { kind := .lineBufferOverflow }
        converse rounds m
      else
        match m.enter text with
        | (.unchanged, m) => converse rounds m
        | (.malformed e, m) =>
          report e
          converse rounds m
        | (.updated _, m) | (.deleted _, m) =>
          perform (.remember .basic text)
          showOutline options m.listing
          converse rounds m
        | (.command c, m) =>
          perform (.remember .basic text)
          if c = .QUIT then return
          else
            let m ← obey options rounds m c
            perform ready
            converse rounds m
    | _ => return

/-- The machine to begin with: a new one, into which the file that is named is loaded. -/
def setUp : Option String → Talk Machine
  | some name => openFile options .new name
  | none => return .new

def run [PowerRoutine] (file : Option String) (rounds : Nat) : Talk Unit := do
  let m ← setUp options file
  perform ready
  converse options rounds m

/-- What comes of a conversation with a prepared user. -/
def play [PowerRoutine] (file : Option String) (script : List ScriptItem)
    (surroundings : Surroundings) (rounds : Nat) : Played (Except WriteFault Unit) :=
  (run options file rounds).run.play (.begin script surroundings)

end LineBasic.Driver
