import LineBasic.Statement.Parse
import LineBasic.Text.Lines
import LineBasic.Token.Scan

/-!
# Lines

What one typed line means: a statement to store under its number, the number of a line to delete, a
command, nothing at all, or an error. An unknown token anywhere makes the line an error, whatever
else is wrong with it.
-/
namespace LineBasic

inductive Line
  | numbered (number : LineNumber) (statement : Statement)
  | delete (number : LineNumber)
  | command (c : Command)
  | blank
  | invalid (e : Error)
  deriving DecidableEq, Inhabited

namespace Line

def ofFault (f : SyntaxFault) : Line :=
  .invalid f.toError

/-- Reads a token sequence without unknown tokens. Tokens after the first end of line count for
nothing. -/
def ofKnownTokens : List Token → Line
  | [] => .blank
  | .endOfLine :: _ => .blank
  | .command c :: .endOfLine :: _ => .command c
  | .command _ :: _ => ofFault .afterCommand
  | .integer number :: .endOfLine :: _ => .delete number
  | .integer number :: rest =>
    match Statement.parse rest with
    | .ok statement => .numbered number statement
    | .error fault => ofFault fault
  | _ => ofFault .atBeginOfLine

def ofTokens (ts : List Token) : Line :=
  match ts.findSome? Token.unknown? with
  | some text => ofFault (.unknownToken text)
  | none => ofKnownTokens ts

/-- The text of a typed line that is kept: all but the line ends that close it. -/
def source (s : String) : String :=
  String.ofList (Text.dropLineEnd s.toList)

def ofText (s : String) : Line :=
  ofTokens (Token.scan (source s))

end Line

end LineBasic
