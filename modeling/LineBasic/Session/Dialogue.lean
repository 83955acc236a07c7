import LineBasic.Session.Replay

/-!
# Dialogues

A program that talks to a terminal, written down as the tree of what it asks for: each request is
answered, and the program goes on with the answer. A write is answered by whether it went through,
and what comes of a write that did not is up to the program. A scene answers requests from a
prepared script, and plays a dialogue to its end.
-/
namespace LineBasic

inductive WriteFault
  | refused
  deriving DecidableEq, Inhabited

inductive Request
  | perform (e : Effect)
  | readLine (channel : Channel) (prompt : String) (complete? : String → Option String)
  | readFile (name : String)
  /-- Asks whether an interrupt has arrived, and forgets it. -/
  | takeInterrupt

abbrev Request.Answer : Request → Type
  | perform _ => Except WriteFault Unit
  | readLine _ _ _ => Reading
  | readFile _ => Except FileFault (List String)
  | takeInterrupt => Bool

inductive Dialogue (α : Type)
  | finished (result : α)
  /-- Cut off, because a loop has gone through all the rounds it was given. -/
  | unfinished
  | ask (request : Request) (next : request.Answer → Dialogue α)

namespace Dialogue

variable {α β : Type}

def bind (d : Dialogue α) (f : α → Dialogue β) : Dialogue β :=
  match d with
  | finished result => f result
  | unfinished => .unfinished
  | ask request next => .ask request fun answer => (next answer).bind f

instance : Monad Dialogue where
  pure := finished
  bind := bind

end Dialogue

/-- A dialogue that a failed write may end. -/
abbrev Talk (α : Type) : Type :=
  ExceptT WriteFault Dialogue α

namespace Talk

def unfinished {α : Type} : Talk α :=
  ExceptT.mk .unfinished

/-- A write that fails is the failure of the dialogue, unless it is caught. -/
def perform (e : Effect) : Talk Unit :=
  ExceptT.mk (.ask (.perform e) .finished)

def readLine (channel : Channel) (prompt : String)
    (complete? : String → Option String := fun _ => none) : Talk Reading :=
  ExceptT.lift (.ask (.readLine channel prompt complete?) .finished)

def readFile (name : String) : Talk (Except FileFault (List String)) :=
  ExceptT.lift (.ask (.readFile name) .finished)

def takeInterrupt : Talk Bool :=
  ExceptT.lift (.ask .takeInterrupt .finished)

end Talk

/-- What the requests of a dialogue are answered from. -/
structure Scene where
  script : List ScriptItem
  surroundings : Surroundings
  /-- How many writes there have been. -/
  writes : Nat
  /-- An interrupt has arrived and was not asked for yet. -/
  interrupted : Bool
  deriving Inhabited

/-- What comes of going through a script up to the next line. -/
structure Hearing where
  log : List LogEntry
  what : Reading
  rest : List ScriptItem
  /-- An interrupt arrived on the way. -/
  interrupted : Bool

/-- Interrupts and completions do not end the reading of a line; an empty script reads as the end of
the file. -/
def Hearing.ofScript (channel : Channel) (prompt : String) (complete? : String → Option String) :
    List ScriptItem → Hearing
  | [] => ⟨[.read channel prompt .endOfFile], .endOfFile, [], false⟩
  | .reading what :: rest => ⟨[.read channel prompt what], what, rest, false⟩
  | .interrupt :: rest =>
    let hearing := ofScript channel prompt complete? rest
    { hearing with log := .interrupt :: hearing.log, interrupted := true }
  | .tab buffer :: rest =>
    let hearing := ofScript channel prompt complete? rest
    { hearing with log := .tab channel buffer (complete? buffer) :: hearing.log }

namespace Scene

def begin (script : List ScriptItem) (surroundings : Surroundings) : Scene :=
  ⟨script, surroundings, 0, false⟩

/-- Writes are counted. The one that is to fail has no effect; after others an interrupt may
arrive. -/
def write (s : Scene) (channel : Channel) (text : String) :
    List LogEntry × Except WriteFault Unit × Scene :=
  let count := s.writes + 1
  if s.surroundings.failAt = some count then
    ([.writeFailed channel], .error .refused, { s with writes := count })
  else
    let due := s.surroundings.interruptAt.contains count
    (.performed (.write channel text) :: if due then [.interrupt] else [], .ok (),
      { s with writes := count, interrupted := s.interrupted || due })

def answer (s : Scene) : (request : Request) → List LogEntry × request.Answer × Scene
  | .perform (.write channel text) => s.write channel text
  | .perform e => ([.performed e], .ok (), s)
  | .readLine channel prompt complete? =>
    let hearing := Hearing.ofScript channel prompt complete? s.script
    (hearing.log, hearing.what,
      { s with script := hearing.rest, interrupted := s.interrupted || hearing.interrupted })
  | .readFile name => ([], s.surroundings.folder.read name, s)
  | .takeInterrupt => ([], s.interrupted, { s with interrupted := false })

end Scene

structure Played (α : Type) where
  log : List LogEntry
  /-- There is none if the dialogue was cut off. -/
  result : Option α
  last : Scene

def Dialogue.play {α : Type} : Dialogue α → Scene → Played α
  | .finished result, s => ⟨[], some result, s⟩
  | .unfinished, s => ⟨[], none, s⟩
  | .ask request next, s =>
    let (log, answer, after) := s.answer request
    let rest := (next answer).play after
    { rest with log := log ++ rest.log }

end LineBasic
