import LineBasic.Session

/-!
# Arguments of the command line

`FILE` names a program to load before the first prompt, `-t` or `--tree` shows the outline of the
program whenever it changes, and `-c N` or `--cycles N` sets the number of events between two looks
at interrupts.
-/
namespace LineBasic

structure Invocation where
  file : Option String := none
  options : Options := {}
  deriving DecidableEq, Inhabited

namespace Invocation

def usage : String :=
  "Usage: line-basic [-t | --tree] [-c N | --cycles N] [FILE]"

def withCycles (i : Invocation) (text : String) : Option Invocation :=
  (Decimal.unsigned? text.toList).map fun n =>
    { i with options := { i.options with cycles := n.toNat } }

def withFile (i : Invocation) (name : String) : Option Invocation :=
  if i.file.isNone then some { i with file := some name } else none

/-- Reads arguments on top of those read before. There is at most one file, and after two hyphens
every argument is a file. -/
def extend (i : Invocation) : List String → Option Invocation
  | [] => some i
  | "-t" :: rest => { i with options := { i.options with tree := true } }.extend rest
  | "--tree" :: rest => { i with options := { i.options with tree := true } }.extend rest
  | "-c" :: n :: rest => (i.withCycles n).bind (extend · rest)
  | "--cycles" :: n :: rest => (i.withCycles n).bind (extend · rest)
  | "--" :: rest => rest.foldlM withFile i
  | argument :: rest =>
    if argument.toList.head? = some '-' ∧ argument ≠ "-" then none
    else (i.withFile argument).bind (extend · rest)

def ofArguments (arguments : List String) : Option Invocation :=
  ({} : Invocation).extend arguments

end Invocation

end LineBasic
