import LineBasic.Folder
import LineBasic.Machine

/-!
# Sessions

A session is the conversation of one user with one machine. It is written as a process that never
acts by itself: `Session.demand` says what it needs next, and each kind of demand has a function
that carries the session on once the demand is met. So the same session runs on a terminal and
against a prepared script.

A running program is driven in batches of events. Only between two batches is a request to interrupt
it looked at, and starting a run forgets older requests.
-/
namespace LineBasic

/-- The lines of conversation: commands and program lines, values for `INPUT`, and file names. -/
inductive Channel
  | basic
  | input
  | load
  deriving DecidableEq, Inhabited

def Channel.name : Channel → String
  | basic => "BASIC"
  | input => "INPUT"
  | load => "LOAD"

/-- What a session does to its terminal. -/
inductive Effect
  | write (channel : Channel) (text : String)
  /-- Adds a line to those that can be recalled. -/
  | remember (channel : Channel) (line : String)
  /-- Replaces the text being typed. -/
  | setBuffer (channel : Channel) (text : String)
  /-- Drops the line being typed. -/
  | cancel (channel : Channel)
  deriving DecidableEq, Inhabited

inductive Signal
  | breakSignal
  | continueSignal
  | interrupt
  | suspend
  | quit
  deriving DecidableEq, Inhabited

/-- What comes of reading a line. -/
inductive Reading
  | line (text : String)
  | signal (s : Signal)
  | endOfFile
  deriving DecidableEq, Inhabited

/-- What a session is at, once its effects are done. -/
inductive Activity
  /-- Waits for a command or a program line. -/
  | prompting
  /-- Waits for the name of a file to load. -/
  | naming
  /-- Waits for the contents of a file. -/
  | opening (name : String)
  /-- Drives the run, with this many events left in the batch. -/
  | driving (budget : Nat)
  /-- Waits for the value of a variable. -/
  | asking (name : String)
  | closed
  deriving DecidableEq, Inhabited

inductive Demand
  | perform (e : Effect)
  | readLine (channel : Channel) (prompt : String)
  | readFile (name : String)
  /-- Time to drive the run. -/
  | advance
  | nothing
  deriving DecidableEq, Inhabited

structure Options where
  /-- Shows the outline of the program whenever it changes. -/
  tree : Bool := false
  /-- The number of events in a batch; none counts as one. -/
  cycles : Nat := 5000
  deriving DecidableEq, Inhabited

structure Session where
  options : Options
  machine : Machine
  interrupted : Bool
  activity : Activity
  outbox : List Effect
  deriving Inhabited

namespace Session

/-! ## What is shown -/

def bold (text : String) : String :=
  "\x1b[1m" ++ text ++ "\x1b[0m"

def faint (text : String) : String :=
  "\x1b[2m" ++ text ++ "\x1b[0m"

def help : String :=
  "STATEMENTS\n" ++
  "  REM text                 comment\n" ++
  "  LET var = expr           assign\n" ++
  "  PRINT expr               print a value\n" ++
  "  INPUT var                read a whole number\n" ++
  "  GOTO n                   continue at line n\n" ++
  "  IF expr THEN n           continue at line n unless expr is 0\n" ++
  "  END                      stop the program\n" ++
  "OPERATORS\n" ++
  "  **  * /  + -  = < >      tightest first, ** groups to the right\n" ++
  "COMMANDS\n" ++
  "  RUN LOAD LIST CLEAR HELP QUIT\n" ++
  "Type a numbered line to store it, or the number alone to delete it."

/-- A line of its own for the user. -/
def tell (text : String) : Effect :=
  .write .basic (text ++ "\n")

def ready : Effect :=
  tell "READY."

def broken : Effect :=
  tell (bold "BREAK")

def report (e : Error) : Effect :=
  tell (bold ("?" ++ e.message))

def caution (w : Warning) : Effect :=
  tell (faint ("WARNING: " ++ w.message))

def redo : Effect :=
  .write .input "?REDO FROM START\n"

/-- The outline of a changed program, if the user wants to see it. -/
def outlined (options : Options) (p : Program) : List Effect :=
  if options.tree then [.write .basic p.outline.render] else []

/-! ## Beginning and ending -/

/-- A session that first loads a file, if one is named. -/
def begin (options : Options) : Option String → Session
  | some name => ⟨options, .new, false, .opening name, []⟩
  | none => ⟨options, .new, false, .prompting, [ready]⟩

/-- Ends the session at once, as a failed write does. -/
def close (s : Session) : Session :=
  { s with activity := .closed, outbox := [] }

def interrupt (s : Session) : Session :=
  { s with interrupted := true }

/-- Goes over to another activity, with effects that come before it. -/
def turnTo (s : Session) (activity : Activity) (effects : List Effect) : Session :=
  { s with activity := activity, outbox := s.outbox ++ effects }

/-! ## Commands and program lines -/

/-- The longest line that is taken, in bytes of UTF-8. -/
def maxLineBytes : Nat := 255

def obey (s : Session) : Command → Session
  | .QUIT => s.turnTo .closed []
  | .RUN => { s with machine := s.machine.start, interrupted := false }.turnTo (.driving 0) []
  | .LOAD => s.turnTo .naming []
  | .LIST => s.turnTo .prompting (s.machine.listing.sources.map tell ++ [ready])
  | .CLEAR => { s with machine := s.machine.clear }.turnTo .prompting [ready]
  | .HELP => s.turnTo .prompting [tell help, ready]

def takeLine (s : Session) (text : String) : Session :=
  if maxLineBytes < text.utf8ByteSize then
    s.turnTo .prompting [report { kind := .lineBufferOverflow }]
  else
    let (edit, machine) := s.machine.enter text
    let s := { s with machine := machine }
    match edit with
    | .unchanged => s
    | .malformed e => s.turnTo .prompting [report e]
    | .updated _ | .deleted _ =>
      s.turnTo .prompting (.remember .basic text :: outlined s.options machine.listing)
    | .command c => (s.turnTo .prompting [.remember .basic text]).obey c

/-! ## Loading -/

def takeFileName (s : Session) (name : String) : Session :=
  s.turnTo (.opening (String.ofList (Text.trim name.toList))) []

/-- Takes the lines of the file that was asked for, or the reason why there are none. -/
def takeFile (s : Session) : Except FileFault (List String) → Session
  | .ok lines =>
    let machine := s.machine.load lines
    { s with machine := machine }.turnTo .prompting
      (outlined s.options machine.listing ++ [ready])
  | .error fault => s.turnTo .prompting [report fault.toError, ready]

/-! ## Running -/

def breakOff (s : Session) (effects : List Effect) : Session :=
  { s with machine := s.machine.interrupt }.turnTo .prompting (effects ++ [broken, ready])

/-- Takes a value typed for a variable; what is no number is asked for again. -/
def takeValue (s : Session) (name text : String) : Session :=
  match s.machine.input text with
  | (true, machine) => { s with machine := machine }.turnTo (.driving 0) [.remember .input text]
  | (false, machine) => { s with machine := machine }.turnTo (.asking name) [redo]

/-- Shows an event of the run and goes on with the rest of the batch. -/
def display (s : Session) (budget : Nat) : Event → Session
  | .print text => s.turnTo (.driving budget) [tell text]
  | .warning w => s.turnTo (.driving budget) [caution w]
  | .running => s.turnTo (.driving budget) []
  | .jumped _ => s.turnTo (.driving budget) []
  | .input name => s.turnTo (.asking name) []
  | .failed e => s.turnTo .prompting [report e, ready]
  | .finished => s.turnTo .prompting [ready]
  | .idle => s.turnTo .prompting [ready]

/-- Drives the run by one event. Where a batch is used up, a request to interrupt the run is met;
otherwise the next batch begins. -/
def drive [PowerRoutine] (s : Session) : Nat → Session
  | 0 =>
    if s.interrupted then { s with interrupted := false }.breakOff []
    else s.turnTo (.driving (max s.options.cycles 1)) []
  | budget + 1 =>
    let (event, machine) := s.machine.step
    { s with machine := machine }.display budget event

/-! ## The process -/

def demand (s : Session) : Demand :=
  match s.outbox with
  | e :: _ => .perform e
  | [] =>
    match s.activity with
    | .prompting => .readLine .basic ""
    | .naming => .readLine .load "FILE? "
    | .opening name => .readFile name
    | .driving _ => .advance
    | .asking name => .readLine .input (name ++ "? ")
    | .closed => .nothing

/-- The first effect has been performed. -/
def performed (s : Session) : Session :=
  { s with outbox := s.outbox.tail }

def receive (s : Session) (r : Reading) : Session :=
  match s.activity, r with
  | .prompting, .line text => s.takeLine text
  | .prompting, _ => s.turnTo .closed []
  | .naming, .line name => s.takeFileName name
  | .naming, _ => s.turnTo .prompting [ready]
  | .asking name, .line text => s.takeValue name text
  | .asking _, .signal .interrupt => s.breakOff [.setBuffer .input "", .cancel .input]
  | .asking _, _ => s.breakOff []
  | _, _ => s

def advance [PowerRoutine] (s : Session) : Session :=
  match s.activity with
  | .driving budget => s.drive budget
  | _ => s

/-- The text that completes what is typed: at the prompt, the number of a stored line brings back
its text. -/
def complete? (s : Session) (buffer : String) : Option String :=
  match s.activity with
  | .prompting => (Decimal.unsigned? (Text.trim buffer.toList)).bind s.machine.listing.source?
  | _ => none

end Session

end LineBasic
