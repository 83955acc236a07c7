import LineBasic.Session

/-!
# Replayed sessions

A session against a prepared script in place of a user: what is typed, which files there are, after
which writes an interrupt arrives, and which write fails. `Replay.step` meets one demand of the
session and tells what happened.
-/
namespace LineBasic

inductive ScriptItem
  | reading (r : Reading)
  /-- The user asks for an interrupt while a line is read. -/
  | interrupt
  /-- The user asks for a completion while a line is read. -/
  | tab (buffer : String)
  deriving DecidableEq, Inhabited

inductive LogEntry
  | performed (e : Effect)
  | writeFailed (channel : Channel)
  | read (channel : Channel) (prompt : String) (r : Reading)
  | tab (channel : Channel) (buffer : String) (completion : Option String)
  | interrupt
  deriving DecidableEq, Inhabited

/-- Things that happen around a session whatever it does. -/
structure Surroundings where
  folder : Folder
  /-- The counts of writes after which an interrupt arrives. -/
  interruptAt : List Nat
  /-- The count of the write that fails. -/
  failAt : Option Nat
  deriving Inhabited

structure Replay where
  session : Session
  script : List ScriptItem
  surroundings : Surroundings
  /-- How many writes there have been. -/
  writes : Nat
  deriving Inhabited

namespace Replay

def begin (options : Options) (file : Option String) (script : List ScriptItem)
    (surroundings : Surroundings) : Replay :=
  ⟨.begin options file, script, surroundings, 0⟩

def isOver (r : Replay) : Bool :=
  r.session.demand == .nothing

/-- Writes are counted. The one that is to fail ends the session; after others an interrupt may
arrive. -/
def write (r : Replay) (channel : Channel) (text : String) : List LogEntry × Replay :=
  let r := { r with writes := r.writes + 1 }
  let done := LogEntry.performed (.write channel text)
  if r.surroundings.failAt = some r.writes then
    ([.writeFailed channel], { r with session := r.session.close })
  else if r.surroundings.interruptAt.contains r.writes then
    ([done, .interrupt], { r with session := r.session.performed.interrupt })
  else ([done], { r with session := r.session.performed })

/-- Reads the next item of the script; an empty script reads as the end of the file. -/
def read (r : Replay) (channel : Channel) (prompt : String) : List LogEntry × Replay :=
  match r.script with
  | [] =>
    ([.read channel prompt .endOfFile], { r with session := r.session.receive .endOfFile })
  | .reading what :: rest =>
    ([.read channel prompt what], { r with session := r.session.receive what, script := rest })
  | .interrupt :: rest => ([.interrupt], { r with session := r.session.interrupt, script := rest })
  | .tab buffer :: rest =>
    ([.tab channel buffer (r.session.complete? buffer)], { r with script := rest })

def step [PowerRoutine] (r : Replay) : List LogEntry × Replay :=
  match r.session.demand with
  | .perform (.write channel text) => r.write channel text
  | .perform e => ([.performed e], { r with session := r.session.performed })
  | .readLine channel prompt => r.read channel prompt
  | .readFile name =>
    ([], { r with session := r.session.takeFile (r.surroundings.folder.read name) })
  | .advance => ([], { r with session := r.session.advance })
  | .nothing => ([], r)

/-- At most `n` steps, with all that happened in them. -/
def run [PowerRoutine] : Nat → Replay → List LogEntry × Replay
  | 0, r => ([], r)
  | n + 1, r =>
    let (first, next) := r.step
    let (others, last) := run n next
    (first ++ others, last)

end Replay

end LineBasic
