import LineBasic.Expr
import LineBasic.Variables

/-!
# Evaluating expressions

Operands are evaluated from left to right. Reading a variable that is not bound gives zero and a
warning. An arithmetic fault ends the evaluation; the warnings given before it stay.
-/
namespace LineBasic

/-- A remark on a program that runs on. -/
inductive Warning
  | unknownVariable (name : String)
  deriving DecidableEq, Inhabited

def Warning.message : Warning → String
  | unknownVariable name => "unknown variable `" ++ name ++ "`"

/-- A computation that may fail, and that adds warnings to a list whether or not it fails. -/
abbrev Eval (ε α : Type) : Type :=
  ExceptT ε (StateM (List Warning)) α

namespace Eval

variable {ε α β : Type}

def warn (w : Warning) : Eval ε Unit :=
  modify (· ++ [w])

def ofExcept (r : Except ε α) : Eval ε α :=
  ExceptT.mk (pure r)

/-- The outcome and the warnings of a computation that finds the warnings `ws`. -/
def outcome (m : Eval ε α) (ws : List Warning) : Except ε α × List Warning :=
  (ExceptT.run m).run ws

@[simp]
theorem outcome_pure (a : α) (ws : List Warning) :
    (pure a : Eval ε α).outcome ws = (.ok a, ws) := rfl

@[simp]
theorem outcome_warn (w : Warning) (ws : List Warning) :
    (warn w : Eval ε Unit).outcome ws = (.ok (), ws ++ [w]) := rfl

@[simp]
theorem outcome_ofExcept (r : Except ε α) (ws : List Warning) :
    (ofExcept r).outcome ws = (r, ws) := rfl

/-- The second computation finds the warnings of the first; a fault of the first skips it. -/
theorem outcome_bind (m : Eval ε α) (f : α → Eval ε β) (ws : List Warning) :
    (m >>= f).outcome ws =
      match m.outcome ws with
      | (.ok a, found) => (f a).outcome found
      | (.error fault, found) => (.error fault, found) := by
  simp only [outcome, ExceptT.run_bind, StateT.run_bind]
  cases h : StateT.run (ExceptT.run m) ws with
  | mk result found => cases result <;> rfl

end Eval

namespace Variables

def read (vars : Variables) (name : String) : Eval Fault Int64 :=
  match vars.get? name with
  | some value => pure value
  | none => do
    Eval.warn (.unknownVariable name)
    return 0

end Variables

namespace Expr

variable [PowerRoutine]

/-- The value of an expression. A minus sign directly on a literal belongs to the literal. -/
def eval (vars : Variables) : Expr → Eval Fault Int64
  | var name => vars.read name
  | integer n => Eval.ofExcept (Checked.literal n)
  | negation (integer n) => Eval.ofExcept (Checked.negativeLiteral n)
  | negation operand => do
    let a ← operand.eval vars
    Eval.ofExcept (Checked.negate a)
  | identity operand => operand.eval vars
  | binary o left right => do
    let a ← left.eval vars
    let b ← right.eval vars
    Eval.ofExcept (o.apply a b)

def evaluate (vars : Variables) (e : Expr) : Except Fault (Int64 × List Warning) :=
  match (e.eval vars).outcome [] with
  | (.ok value, warnings) => .ok (value, warnings)
  | (.error fault, _) => .error fault

end Expr

end LineBasic
