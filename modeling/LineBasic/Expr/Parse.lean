import LineBasic.Expr
import LineBasic.SyntaxFault
import LineBasic.Token

/-!
# Reading expressions

An expression is read from the front of a token sequence and leaves the tokens after it. Operators
bind on four levels. Comparisons bind loosest and do not chain; sums and products group to the left;
a sign binds tighter than both, and a power tighter than the sign in front of it. The right side of
a power may carry signs of its own, so powers group to the right.
-/
namespace LineBasic

/-- How tightly an operator binds. -/
inductive Level
  | comparison
  | sum
  | product
  | power
  deriving DecidableEq, Inhabited

def Operator.level : Operator → Level
  | power => .power
  | multiply => .product
  | divide => .product
  | add => .sum
  | subtract => .sum
  | equal => .comparison
  | less => .comparison
  | greater => .comparison

/-- A value read from the front of `ts`, and the tokens after it, which are fewer. -/
structure Parsed (α : Type) (ts : List Token) where
  value : α
  rest : List Token
  shorter : rest.length < ts.length

namespace Parsed

variable {α β γ : Type} {ts after : List Token} {t : Token}

theorem length_after_lt (p : Parsed α ts) (h : p.rest = t :: after) : after.length < ts.length := by
  have := p.shorter
  rw [h, List.length_cons] at this
  omega

/-- What is read after the first token of a longer sequence. -/
def cons (t : Token) (p : Parsed α ts) : Parsed α (t :: ts) :=
  ⟨p.value, p.rest, Nat.lt_succ_of_lt p.shorter⟩

def map (f : α → β) (p : Parsed α ts) : Parsed β ts :=
  ⟨f p.value, p.rest, p.shorter⟩

def skip (p : Parsed α ts) (h : p.rest = t :: after) : Parsed α ts :=
  ⟨p.value, after, p.length_after_lt h⟩

/-- Joins two values read one after the other with one token between them. -/
def join (f : α → β → γ) (p : Parsed α ts) (h : p.rest = t :: after) (q : Parsed β after) :
    Parsed γ ts :=
  ⟨f p.value q.value, q.rest, Nat.lt_trans q.shorter (p.length_after_lt h)⟩

end Parsed

namespace Expr

mutual

/-- Reads a sum, or two sums joined by one comparison. -/
def comparison (ts : List Token) : Except SyntaxFault (Parsed Expr ts) := do
  let left ← sum ts
  match h : left.rest with
  | .operator o :: after =>
    if o.level = .comparison then
      let right ← sum after
      return left.join (.binary o) h right
    else return left
  | _ => return left
termination_by (ts.length, 6)
decreasing_by
  · exact Prod.Lex.right _ (by decide)
  · exact Prod.Lex.left _ _ (left.length_after_lt h)

/-- Reads products joined by plus and minus. -/
def sum (ts : List Token) : Except SyntaxFault (Parsed Expr ts) := do
  let left ← product ts
  sumFrom left
termination_by (ts.length, 5)
decreasing_by
  · exact Prod.Lex.right _ (by decide)
  · exact Prod.Lex.left _ _ left.shorter

def sumFrom {ts : List Token} (left : Parsed Expr ts) : Except SyntaxFault (Parsed Expr ts) :=
  match h : left.rest with
  | .operator o :: after =>
    if o.level = .sum then do
      let right ← product after
      sumFrom (left.join (.binary o) h right)
    else return left
  | _ => return left
termination_by (left.rest.length, 4)
decreasing_by
  · rw [h]
    exact Prod.Lex.left _ _ (Nat.lt_succ_self _)
  · rw [h]
    exact Prod.Lex.left _ _ (Nat.lt_succ_of_lt right.shorter)

/-- Reads signed operands joined by times and divide. -/
def product (ts : List Token) : Except SyntaxFault (Parsed Expr ts) := do
  let left ← signed ts
  productFrom left
termination_by (ts.length, 3)
decreasing_by
  · exact Prod.Lex.right _ (by decide)
  · exact Prod.Lex.left _ _ left.shorter

def productFrom {ts : List Token} (left : Parsed Expr ts) : Except SyntaxFault (Parsed Expr ts) :=
  match h : left.rest with
  | .operator o :: after =>
    if o.level = .product then do
      let right ← signed after
      productFrom (left.join (.binary o) h right)
    else return left
  | _ => return left
termination_by (left.rest.length, 4)
decreasing_by
  · rw [h]
    exact Prod.Lex.left _ _ (Nat.lt_succ_self _)
  · rw [h]
    exact Prod.Lex.left _ _ (Nat.lt_succ_of_lt right.shorter)

/-- Reads any number of signs and the power they apply to. -/
def signed (ts : List Token) : Except SyntaxFault (Parsed Expr ts) :=
  match ts with
  | .operator .subtract :: after => do
    let operand ← signed after
    return (operand.map .negation).cons _
  | .operator .add :: after => do
    let operand ← signed after
    return (operand.map .identity).cons _
  | ts => power ts
termination_by (ts.length, 2)
decreasing_by
  · exact Prod.Lex.left _ _ (Nat.lt_succ_self _)
  · exact Prod.Lex.left _ _ (Nat.lt_succ_self _)
  · exact Prod.Lex.right _ (by decide)

/-- Reads a primary expression, which may be raised to a signed power. -/
def power (ts : List Token) : Except SyntaxFault (Parsed Expr ts) := do
  let base ← primary ts
  match h : base.rest with
  | .operator .power :: after =>
    let exponent ← signed after
    return base.join (.binary .power) h exponent
  | _ => return base
termination_by (ts.length, 1)
decreasing_by
  · exact Prod.Lex.right _ (by decide)
  · exact Prod.Lex.left _ _ (base.length_after_lt h)

/-- Reads a variable, a number, or an expression in parentheses. -/
def primary (ts : List Token) : Except SyntaxFault (Parsed Expr ts) :=
  match ts with
  | .ident name :: after => return ⟨.var name, after, Nat.lt_succ_self _⟩
  | .integer n :: after => return ⟨.integer n, after, Nat.lt_succ_self _⟩
  | .leftParen :: after => do
    let inner ← comparison after
    match h : inner.rest with
    | .rightParen :: _ => return (inner.skip h).cons _
    | _ => throw .unmatchedLeftParen
  | _ => throw .inExpression
termination_by (ts.length, 0)
decreasing_by
  · exact Prod.Lex.left _ _ (Nat.lt_succ_self _)

end

end Expr

end LineBasic
