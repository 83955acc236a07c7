import LineBasic.Line

/-!
# Outlines

The tree of a line, written one node a row and indented by one tab for each level. The parts of a
statement stand one level below it; the word `THEN` stands level with its `IF`.
-/
namespace LineBasic

structure Row where
  depth : Nat
  text : String
  deriving DecidableEq, Inhabited

abbrev Outline := List Row

namespace Outline

def leaf (text : String) : Outline :=
  [⟨0, text⟩]

/-- The outline moved `n` levels in. -/
def indent (n : Nat) (o : Outline) : Outline :=
  o.map fun row => { row with depth := row.depth + n }

/-- A row with the outline `o` one level below it. -/
def above (text : String) (o : Outline) : Outline :=
  ⟨0, text⟩ :: o.indent 1

/-- The characters of a row: a tab for each level, the text, and a line feed. -/
def rowText (row : Row) : String :=
  String.ofList (List.replicate row.depth '\t') ++ row.text ++ "\n"

def render (o : Outline) : String :=
  String.join (o.map rowText)

end Outline

open Outline

def Expr.outline : Expr → Outline
  | var name => leaf name
  | integer n => leaf (Decimal.ofNat n.toNat)
  | negation operand => above "-" operand.outline
  | identity operand => above "+" operand.outline
  | binary o left right => above o.symbol (left.outline ++ right.outline)

def LineNumber.outline (number : LineNumber) : Outline :=
  leaf (Decimal.ofNat number.toNat)

def Statement.outline : Statement → Outline
  | remark text => above "REM" (leaf text)
  | assign name e => above "LET" (above "=" (leaf name ++ e.outline))
  | print e => above "PRINT" e.outline
  | input name => above "INPUT" (leaf name)
  | goto target => above "GOTO" (LineNumber.outline target)
  | branch condition target =>
    above "IF" condition.outline ++ above "THEN" (LineNumber.outline target)
  | stop => leaf "END"

def Line.outline : Line → Outline
  | numbered number statement => above (Decimal.ofNat number.toNat) statement.outline
  | delete number => LineNumber.outline number
  | command c => leaf c.spelling
  | blank => []
  | invalid e => above "INVALID" (leaf e.detail)

end LineBasic
