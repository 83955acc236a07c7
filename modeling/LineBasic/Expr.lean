import LineBasic.Operator

/-!
# Expressions

An expression is a variable, a number literal, an operand with a sign, or two operands joined by an
operator. A plus sign is kept as an identity, so that the tree shows what was written.
-/
namespace LineBasic

inductive Expr
  | var (name : String)
  | integer (n : UInt64)
  | negation (operand : Expr)
  | identity (operand : Expr)
  | binary (o : Operator) (left right : Expr)
  deriving DecidableEq, Inhabited

namespace Expr

/-- The names of the variables of an expression, from left to right and with repetitions. -/
def names : Expr → List String
  | var name => [name]
  | integer _ => []
  | negation operand => operand.names
  | identity operand => operand.names
  | binary _ left right => left.names ++ right.names

end Expr

end LineBasic
