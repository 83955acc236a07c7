import LineBasic.Error
import LineBasic.Expr.Eval

/-!
# Statements

A statement either passes on to the next line, or shows a value, asks for one, jumps, or halts the
program. It may fail too. Either way it gives back the variables as they are after it.
-/
namespace LineBasic

inductive Statement
  /-- `REM`: a comment. -/
  | remark (text : String)
  /-- `LET`: binds a variable. -/
  | assign (name : String) (e : Expr)
  /-- `PRINT`: shows a value. -/
  | print (e : Expr)
  /-- `INPUT`: asks for the value of a variable. -/
  | input (name : String)
  /-- `GOTO`: goes on at another line. -/
  | goto (target : LineNumber)
  /-- `IF … THEN`: goes on at another line unless the condition is zero. -/
  | branch (condition : Expr) (target : LineNumber)
  /-- `END`: stops the program. -/
  | stop
  deriving DecidableEq, Inhabited

/-- Where a statement hands on to. -/
inductive Flow
  | next
  | print (text : String)
  | input (name : String)
  | jump (target : LineNumber)
  | halt
  deriving DecidableEq, Inhabited

/-- The error of a statement, with the variables after it. -/
structure Failure extends Error where
  vars : Variables

/-- A fault in an expression, with the variables that were read. -/
def Fault.toFailure (fault : Fault) (vars : Variables) : Failure :=
  { fault.toError with vars := vars }

namespace Statement

variable [PowerRoutine]

def valueOf (vars : Variables) (e : Expr) : Eval Failure Int64 :=
  ExceptT.adapt (Fault.toFailure · vars) (e.eval vars)

/-- Executes a statement: where it hands on to, and the variables after it. -/
def run (vars : Variables) : Statement → Eval Failure (Flow × Variables)
  | remark _ => return (.next, vars)
  | assign name e => do
    let value ← valueOf vars e
    return (.next, vars.insert name value)
  | print e => do
    let value ← valueOf vars e
    return (.print (Decimal.ofInt value.toInt), vars)
  | input name => return (.input name, vars)
  | goto target => return (.jump target, vars)
  | branch condition target => do
    let value ← valueOf vars condition
    return (if value.toInt = 0 then .next else .jump target, vars)
  | stop => return (.halt, vars)

theorem outcome_valueOf (vars : Variables) (e : Expr) (ws : List Warning) :
    (valueOf vars e).outcome ws =
      (((e.eval vars).outcome ws).1.mapError (Fault.toFailure · vars),
        ((e.eval vars).outcome ws).2) := rfl

def target? : Statement → Option LineNumber
  | goto target => some target
  | branch _ target => some target
  | _ => none

def assigned? : Statement → Option String
  | assign name _ => some name
  | input name => some name
  | _ => none

end Statement

end LineBasic
