import LineBasic.Line

/-!
# The grammar of lines

Which token sequences are expressions and statements, and the one tree that each stands for, said
without a word about how they are read. The rules for sums and products recur on the left, which is
what groups them to the left; the rule for powers recurs on the right, through the looser category
of signed operands.
-/
namespace LineBasic.Grammar

/-- The categories of expressions, from the loosest to the tightest. -/
inductive Category
  | comparison
  | additive
  | multiplicative
  | unary
  | power
  | primary
  deriving DecidableEq

/-- The tokens `p` are an expression of the category, and their tree is `e`. -/
inductive Derives : Category → List Token → Expr → Prop
  | ofAdditive {p e} : Derives .additive p e → Derives .comparison p e
  | compare {o p q a b} : o ∈ [Operator.equal, .less, .greater] →
      Derives .additive p a → Derives .additive q b →
      Derives .comparison (p ++ .operator o :: q) (.binary o a b)
  | ofMultiplicative {p e} : Derives .multiplicative p e → Derives .additive p e
  | add {o p q a b} : o ∈ [Operator.add, .subtract] →
      Derives .additive p a → Derives .multiplicative q b →
      Derives .additive (p ++ .operator o :: q) (.binary o a b)
  | ofUnary {p e} : Derives .unary p e → Derives .multiplicative p e
  | multiply {o p q a b} : o ∈ [Operator.multiply, .divide] →
      Derives .multiplicative p a → Derives .unary q b →
      Derives .multiplicative (p ++ .operator o :: q) (.binary o a b)
  | minus {p e} : Derives .unary p e → Derives .unary (.operator .subtract :: p) (.negation e)
  | plus {p e} : Derives .unary p e → Derives .unary (.operator .add :: p) (.identity e)
  | ofPower {p e} : Derives .power p e → Derives .unary p e
  | ofPrimary {p e} : Derives .primary p e → Derives .power p e
  | raise {p q a b} : Derives .primary p a → Derives .unary q b →
      Derives .power (p ++ .operator .power :: q) (.binary .power a b)
  | ident (name : String) : Derives .primary [.ident name] (.var name)
  | integer (n : UInt64) : Derives .primary [.integer n] (.integer n)
  | parenthesized {p e} : Derives .comparison p e →
      Derives .primary (.leftParen :: p ++ [.rightParen]) e

/-- The tokens `p`, up to the end of the line and without it, are a statement. -/
inductive Sentence : List Token → Statement → Prop
  | emptyRemark : Sentence [.word .REM] (.remark "")
  | remark (text : String) : Sentence [.word .REM, .remark text] (.remark text)
  | assign {p e} (name : String) : Derives .comparison p e →
      Sentence (.word .LET :: .ident name :: .operator .equal :: p) (.assign name e)
  | print {p e} : Derives .comparison p e → Sentence (.word .PRINT :: p) (.print e)
  | input (name : String) : Sentence [.word .INPUT, .ident name] (.input name)
  | goto (target : LineNumber) : Sentence [.word .GOTO, .integer target] (.goto target)
  | branch {p e} (target : LineNumber) : Derives .comparison p e →
      Sentence (.word .IF :: p ++ [.word .THEN, .integer target]) (.branch e target)
  | stop : Sentence [.word .END] .stop

/-- The line that a sequence of known tokens stands for. What follows the first end of line does not
count, and a sequence that ends before it stands for a line only when it is empty. -/
inductive Written : List Token → Line → Prop
  | empty : Written [] .blank
  | blank (rest : List Token) : Written (.endOfLine :: rest) .blank
  | command (c : Command) (rest : List Token) :
      Written (.command c :: .endOfLine :: rest) (.command c)
  | delete (n : LineNumber) (rest : List Token) :
      Written (.integer n :: .endOfLine :: rest) (.delete n)
  | numbered {p st} (n : LineNumber) (rest : List Token) : Sentence p st →
      Written (.integer n :: p ++ .endOfLine :: rest) (.numbered n st)

end LineBasic.Grammar
