import LineBasic.Program

/-!
# The machine

A machine holds a program that may be edited at any time, and runs a snapshot of it, taken when the
run starts, so that edits wait for the next run. Each step yields one event. A statement with
warnings yields several; they wait in a queue, and no other statement is executed before the queue
is empty.
-/
namespace LineBasic

/-- One report of a run. -/
inductive Event
  /-- No run is active. -/
  | idle
  /-- A statement has nothing to show. -/
  | running
  | jumped (target : LineNumber)
  | print (text : String)
  | warning (w : Warning)
  /-- The run waits for the value of a variable. -/
  | input (name : String)
  | finished
  | failed (e : Error)
  deriving DecidableEq, Inhabited

/-- Where a run stands. A running machine executes the line `pc` next; without one it has passed the
last line. -/
inductive Phase
  | idle
  | running (pc : Option LineNumber)
  | awaiting (name : String) (pc : Option LineNumber)
  | finished
  deriving DecidableEq, Inhabited

namespace Phase

def pc? : Phase → Option LineNumber
  | running pc => pc
  | awaiting _ pc => pc
  | _ => none

def pending? : Phase → Option String
  | awaiting name _ => some name
  | _ => none

end Phase

/-- What executing one statement comes to: its warnings, the event that closes it, and how the run
goes on. -/
structure Turn where
  warnings : List Warning
  closing : Event
  phase : Phase
  vars : Variables

namespace Turn

variable [PowerRoutine]

def finish (vars : Variables) : Turn :=
  ⟨[], .finished, .finished, vars⟩

def execute (program : Program) (vars : Variables) (number : LineNumber) (statement : Statement) :
    Turn :=
  let next := program.after? number
  match (statement.run vars).outcome [] with
  | (.ok (.next, vars), warnings) => ⟨warnings, .running, .running next, vars⟩
  | (.ok (.print text, vars), warnings) => ⟨warnings, .print text, .running next, vars⟩
  | (.ok (.input name, vars), warnings) => ⟨warnings, .input name, .awaiting name next, vars⟩
  | (.ok (.jump target, vars), warnings) =>
    ⟨warnings, .jumped target, .running (some target), vars⟩
  | (.ok (.halt, vars), warnings) => ⟨warnings, .finished, .finished, vars⟩
  | (.error failure, warnings) =>
    ⟨warnings, .failed (failure.toError.inLine number), .finished, failure.vars⟩

/-- The turn of a run that stands at `pc`. Past the last line, and at a line that is not there, the
run ends. -/
def take (program : Program) (vars : Variables) : Option LineNumber → Turn
  | none => finish vars
  | some number =>
    match program.statement? number with
    | some statement => execute program vars number statement
    | none => finish vars

theorem take_of_statement {program : Program} {number : LineNumber} {statement : Statement}
    (h : program.statement? number = some statement) (vars : Variables) :
    take program vars (some number) = execute program vars number statement := by
  simp only [take, h]

theorem take_of_missing {program : Program} {number : LineNumber}
    (h : program.statement? number = none) (vars : Variables) :
    take program vars (some number) = finish vars := by
  simp only [take, h]

end Turn

structure Machine where
  listing : Program
  snapshot : Program
  phase : Phase
  vars : Variables
  queue : List Event
  deriving Inhabited

namespace Machine

def new : Machine :=
  ⟨.empty, .empty, .idle, .empty, []⟩

/-! ## Editing -/

def enter (m : Machine) (s : String) : Edit × Machine :=
  let (edit, listing) := m.listing.enter s
  (edit, { m with listing := listing })

def setListing (m : Machine) (p : Program) : Machine :=
  { m with listing := p }

def load (m : Machine) (lines : List String) : Machine :=
  m.setListing (.ofLines lines)

def clear (m : Machine) : Machine :=
  m.setListing .empty

/-! ## Running -/

/-- Starts a run of the present program at its first line, with no variable bound. -/
def start (m : Machine) : Machine :=
  let phase := match m.listing.first? with
    | some number => .running (some number)
    | none => .finished
  ⟨m.listing, m.listing, phase, .empty, []⟩

/-- Gives up the run. -/
def interrupt (m : Machine) : Machine :=
  { m with phase := .idle, queue := [] }

/-- Reads a typed number: white space around it does not count. -/
def typedValue? (s : String) : Option Int64 :=
  Decimal.signed? (Text.trim s.toList)

/-- Offers a typed number to a machine that waits for one. Says whether it was taken; a machine that
does not take it stays as it is. -/
def input (m : Machine) (s : String) : Bool × Machine :=
  match m.phase, typedValue? s with
  | .awaiting name pc, some value =>
    (true, { m with phase := .running pc, vars := m.vars.insert name value })
  | _, _ => (false, m)

/-- Takes over the outcome of a turn: its first event, with the others in the queue. -/
def settle (m : Machine) (t : Turn) : Event × Machine :=
  match t.warnings with
  | [] => (t.closing, { m with phase := t.phase, vars := t.vars, queue := [] })
  | w :: ws =>
    (.warning w, { m with
      phase := t.phase, vars := t.vars, queue := ws.map .warning ++ [t.closing] })

def step [PowerRoutine] (m : Machine) : Event × Machine :=
  match m.queue with
  | event :: rest => (event, { m with queue := rest })
  | [] =>
    match m.phase with
    | .idle => (.idle, m)
    | .finished => (.finished, m)
    | .awaiting name _ => (.input name, m)
    | .running pc => m.settle (.take m.snapshot m.vars pc)

end Machine

end LineBasic
