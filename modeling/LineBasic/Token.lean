import LineBasic.Operator
import LineBasic.Decimal

/-!
# Tokens

A line of text is a sequence of tokens. Words begin statements or join their parts, commands stand
alone on a line, and both are reserved: a name spelled like one of them is never an identifier.
Every token has one spelling, and the end of the line is spelled by nothing.
-/
namespace LineBasic

inductive Word
  | END
  | GOTO
  | IF
  | INPUT
  | LET
  | PRINT
  | REM
  | THEN
  deriving DecidableEq, Inhabited

namespace Word

def all : List Word :=
  [END, GOTO, IF, INPUT, LET, PRINT, REM, THEN]

def spelling : Word → String
  | END => "END"
  | GOTO => "GOTO"
  | IF => "IF"
  | INPUT => "INPUT"
  | LET => "LET"
  | PRINT => "PRINT"
  | REM => "REM"
  | THEN => "THEN"

def ofSpelling? (s : String) : Option Word :=
  all.find? fun w => w.spelling == s

theorem ofSpelling?_eq_some_iff {s : String} {w : Word} :
    ofSpelling? s = some w ↔ w.spelling = s := by
  constructor
  · intro h
    simpa using List.find?_some h
  · rintro rfl
    cases w <;> decide

end Word

inductive Command
  | CLEAR
  | HELP
  | LIST
  | LOAD
  | QUIT
  | RUN
  deriving DecidableEq, Inhabited

namespace Command

def all : List Command :=
  [CLEAR, HELP, LIST, LOAD, QUIT, RUN]

def spelling : Command → String
  | CLEAR => "CLEAR"
  | HELP => "HELP"
  | LIST => "LIST"
  | LOAD => "LOAD"
  | QUIT => "QUIT"
  | RUN => "RUN"

def ofSpelling? (s : String) : Option Command :=
  all.find? fun c => c.spelling == s

theorem ofSpelling?_eq_some_iff {s : String} {c : Command} :
    ofSpelling? s = some c ↔ c.spelling = s := by
  constructor
  · intro h
    simpa using List.find?_some h
  · rintro rfl
    cases c <;> decide

end Command

inductive Token
  /-- A character that begins no token, or a run of digits beyond every number. -/
  | unknown (text : String)
  | integer (n : UInt64)
  | ident (name : String)
  /-- The text of a comment. -/
  | remark (text : String)
  | word (w : Word)
  | command (c : Command)
  | operator (o : Operator)
  | leftParen
  | rightParen
  | endOfLine
  deriving DecidableEq, Inhabited

namespace Token

def spelling : Token → String
  | unknown text => text
  | integer n => Decimal.ofNat n.toNat
  | ident name => name
  | remark text => text
  | word w => w.spelling
  | command c => c.spelling
  | operator o => o.symbol
  | leftParen => "("
  | rightParen => ")"
  | endOfLine => ""

def keyword? (s : String) : Option Token :=
  match Word.ofSpelling? s with
  | some w => some (.word w)
  | none => (Command.ofSpelling? s).map .command

def unknown? : Token → Option String
  | unknown text => some text
  | _ => none

end Token

end LineBasic
