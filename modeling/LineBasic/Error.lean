import LineBasic.Checked
import LineBasic.Decimal

/-!
# Errors

An error has a kind, the line it arose in unless it arose outside a run, and a detail text that may
be empty. `Error.message` is its one written form.
-/
namespace LineBasic

inductive ErrorKind
  | syntaxError
  | overflow
  | divisionByZero
  | lineBufferOverflow
  | internalError
  | fileNotFound
  deriving DecidableEq, Inhabited

namespace ErrorKind

def name : ErrorKind → String
  | syntaxError => "SYNTAX ERROR"
  | overflow => "OVERFLOW"
  | divisionByZero => "DIVISION BY ZERO"
  | lineBufferOverflow => "LINE BUFFER OVERFLOW"
  | internalError => "INTERNAL ERROR"
  | fileNotFound => "FILE NOT FOUND"

/-- The number by which BASIC manuals list the error. -/
def code : ErrorKind → Nat
  | syntaxError => 2
  | overflow => 6
  | divisionByZero => 11
  | lineBufferOverflow => 23
  | internalError => 51
  | fileNotFound => 53

end ErrorKind

structure Error where
  kind : ErrorKind
  line : Option LineNumber := none
  detail : String := ""
  deriving DecidableEq, Inhabited

namespace Error

/-- A direct error belongs to no program line. -/
def isDirect (e : Error) : Bool :=
  e.line.isNone

def inLine (e : Error) (number : LineNumber) : Error :=
  { e with line := some number }

/-- The name of the error, its line after `IN`, and its detail after a semicolon; what is missing
is left out. -/
def message (e : Error) : String :=
  let place := match e.line with
    | some number => " IN " ++ Decimal.ofNat number.toNat
    | none => ""
  let detail := if e.detail = "" then "" else "; " ++ e.detail
  e.kind.name ++ place ++ detail

/-- The message set in a frame that marks it as an error value. -/
def framed (e : Error) : String :=
  "Error \x7b " ++ e.message ++ " \x7d"

end Error

/-- An arithmetic fault as an error, with no line and no detail. -/
def Fault.toError : Fault → Error
  | .overflow => { kind := .overflow }
  | .divisionByZero => { kind := .divisionByZero }

namespace Fault

@[simp]
theorem line_toError (fault : Fault) : fault.toError.line = none := by
  cases fault <;> rfl

@[simp]
theorem detail_toError (fault : Fault) : fault.toError.detail = "" := by
  cases fault <;> rfl

end Fault

end LineBasic
