import LineBasic.Text.Space

/-!
# Lines of a text

A line feed ends a line, and one carriage return directly before it belongs to the line end. The
last line may lack its line feed; an empty last line is no line.
-/
namespace LineBasic.Text

def isLineEnd (c : Char) : Bool :=
  c == '\n' || c == '\r'

/-- One typed line without the line feeds and carriage returns at its end. -/
def dropLineEnd (cs : List Char) : List Char :=
  dropEndWhile isLineEnd cs

def lines : List Char → List (List Char)
  | [] => []
  | '\n' :: cs => [] :: lines cs
  | '\r' :: '\n' :: cs => [] :: lines cs
  | c :: cs =>
    match lines cs with
    | [] => [[c]]
    | l :: ls => (c :: l) :: ls

end LineBasic.Text
