import LineBasic.Expr.Parse
import LineBasic.Statement

/-!
# Reading statements

A statement reaches up to the end of its line. What is missing or superfluous is reported at the
first token that does not fit.
-/
namespace LineBasic.Statement

/-- Accepts the end of the line, and reports `fault` in its place otherwise. -/
def closing {α : Type} (fault : SyntaxFault) (a : α) : List Token → Except SyntaxFault α
  | .endOfLine :: _ => .ok a
  | _ => .error fault

def jumpTarget (fault : SyntaxFault) : List Token → Except SyntaxFault LineNumber
  | .integer n :: rest => closing .afterNumber n rest
  | _ => .error fault

def parseRemark : List Token → Except SyntaxFault Statement
  | .remark text :: rest => closing .afterRemark (.remark text) rest
  | rest => closing .afterRem (.remark "") rest

def parseLet : List Token → Except SyntaxFault Statement
  | .ident name :: .operator .equal :: rest => do
    let e ← Expr.comparison rest
    closing .afterExpression (.assign name e.value) e.rest
  | .ident _ :: _ => .error .letWithoutEqual
  | _ => .error .letWithoutVariable

def parsePrint (ts : List Token) : Except SyntaxFault Statement := do
  let e ← Expr.comparison ts
  closing .afterExpression (.print e.value) e.rest

def parseInput : List Token → Except SyntaxFault Statement
  | .ident name :: rest => closing .afterVariable (.input name) rest
  | _ => .error .afterInput

def parseGoto (ts : List Token) : Except SyntaxFault Statement :=
  return .goto (← jumpTarget .afterGoto ts)

def parseIf (ts : List Token) : Except SyntaxFault Statement := do
  let e ← Expr.comparison ts
  match e.rest with
  | .word .THEN :: rest => return .branch e.value (← jumpTarget .afterThen rest)
  | _ => throw .afterExpression

def parseEnd (ts : List Token) : Except SyntaxFault Statement :=
  closing .afterEnd .stop ts

/-- Reads a statement, chosen by its first word. -/
def parse : List Token → Except SyntaxFault Statement
  | .word .REM :: rest => parseRemark rest
  | .word .LET :: rest => parseLet rest
  | .word .PRINT :: rest => parsePrint rest
  | .word .INPUT :: rest => parseInput rest
  | .word .GOTO :: rest => parseGoto rest
  | .word .IF :: rest => parseIf rest
  | .word .END :: rest => parseEnd rest
  | _ => .error .inStatement

end LineBasic.Statement
