import LineBasic.Error

/-!
# Syntax faults

Each way in which a line fails to be read is a cause of its own; `SyntaxFault.message` words it.
-/
namespace LineBasic

inductive SyntaxFault
  | unknownToken (spelling : String)
  | atBeginOfLine
  | afterCommand
  | inStatement
  | afterRem
  | afterRemark
  | letWithoutVariable
  | letWithoutEqual
  | afterInput
  | afterVariable
  | afterGoto
  | afterThen
  | afterNumber
  | afterEnd
  | inExpression
  | afterExpression
  | unmatchedLeftParen
  deriving DecidableEq, Inhabited

namespace SyntaxFault

def message : SyntaxFault → String
  | unknownToken spelling => "unknown token " ++ spelling
  | atBeginOfLine => "unexpected token at begin of line"
  | afterCommand => "unexpected token after command"
  | inStatement => "unexpected token in statement"
  | afterRem => "unexpected token after rem"
  | afterRemark => "unexpected token after rem string"
  | letWithoutVariable => "let requires variable"
  | letWithoutEqual => "let requires '='"
  | afterInput => "unexpected token after input"
  | afterVariable => "unexpected token after variable"
  | afterGoto => "unexpected token after goto"
  | afterThen => "unexpected token after then"
  | afterNumber => "unexpected token after number"
  | afterEnd => "unexpected token after end"
  | inExpression => "unexpected token in expression"
  | afterExpression => "unexpected token after expression"
  | unmatchedLeftParen => "unmatched left parenthesis"

def toError (f : SyntaxFault) : Error :=
  { kind := .syntaxError, detail := f.message }

end SyntaxFault

end LineBasic
