import LineBasic.Text.Space
import LineBasic.Token

/-!
# Scanning

`Token.scan` cuts a text into tokens. A run of digits and a run of letters and digits that begins
with a letter are taken as long as they go; two stars are one operator; every other character stands
for itself. Blanks separate tokens and leave no trace. The word `REM` turns the rest of the text,
trimmed, into a remark, unless nothing is left. One end-of-line token closes the sequence.
-/
namespace LineBasic.Token

def ofDigits (digits : List Char) : Token :=
  match Range.unsigned? (Decimal.value digits) with
  | some n => .integer n
  | none => .unknown (String.ofList digits)

def ofName (name : List Char) : Token :=
  (keyword? (String.ofList name)).getD (.ident (String.ofList name))

/-- The token of a single character that is no blank, digit or letter. -/
def ofSymbol : Char → Token
  | '(' => .leftParen
  | ')' => .rightParen
  | c =>
    match Operator.ofChar? c with
    | some o => .operator o
    | none => .unknown (String.singleton c)

/-- The token that begins with the character `c`, which is no blank, where `cs` follows, and the
text after that token. -/
def lexeme (c : Char) (cs : List Char) : Token × List Char :=
  if c.isDigit then (ofDigits (c :: cs.takeWhile Char.isDigit), cs.dropWhile Char.isDigit)
  else if c.isAlpha then (ofName (c :: cs.takeWhile Char.isAlphanum), cs.dropWhile Char.isAlphanum)
  else
    match c, cs with
    | '*', '*' :: rest => (.operator .power, rest)
    | c, cs => (ofSymbol c, cs)

theorem length_lexeme_le (c : Char) (cs : List Char) :
    (lexeme c cs).2.length ≤ cs.length := by
  unfold lexeme
  split
  · exact (List.dropWhile_sublist _).length_le
  · split
    · exact (List.dropWhile_sublist _).length_le
    · split
      · exact Nat.le_succ _
      · exact Nat.le_refl _

/-- The remark after the word `REM`, if the text that follows is more than white space. -/
def ofRemark (cs : List Char) : List Token :=
  match Text.trim cs with
  | [] => []
  | text => [.remark (String.ofList text)]

def scanChars : List Char → List Token
  | [] => [.endOfLine]
  | c :: cs =>
    if Text.isBlank c then scanChars cs
    else
      let found := lexeme c cs
      if found.1 = .word .REM then .word .REM :: (ofRemark found.2 ++ [.endOfLine])
      else found.1 :: scanChars found.2
termination_by cs => cs.length
decreasing_by
  · exact Nat.lt_succ_self _
  · exact Nat.lt_succ_of_le (length_lexeme_le c cs)

def scan (s : String) : List Token :=
  scanChars s.toList

end LineBasic.Token
