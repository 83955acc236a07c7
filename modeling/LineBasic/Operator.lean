import LineBasic.Checked.Power

/-!
# Operators

The eight binary operators, with their symbols and what they compute.
-/
namespace LineBasic

inductive Operator
  | power
  | multiply
  | divide
  | add
  | subtract
  | equal
  | less
  | greater
  deriving DecidableEq, Inhabited

namespace Operator

def symbol : Operator → String
  | power => "**"
  | multiply => "*"
  | divide => "/"
  | add => "+"
  | subtract => "-"
  | equal => "="
  | less => "<"
  | greater => ">"

/-- The operator whose symbol is the one character `c`. Power, written with two characters, is
not among them. -/
def ofChar? : Char → Option Operator
  | '*' => some multiply
  | '/' => some divide
  | '+' => some add
  | '-' => some subtract
  | '=' => some equal
  | '<' => some less
  | '>' => some greater
  | _ => none

theorem ofChar?_eq_some_iff {c : Char} {o : Operator} :
    ofChar? c = some o ↔ o.symbol = String.singleton c := by
  constructor
  · intro h
    unfold ofChar? at h
    split at h <;> cases h <;> rfl
  · intro h
    have hc : o.symbol.toList = [c] := by rw [h]; simp
    cases o <;> simp [symbol] at hc <;> subst hc <;> rfl

def apply [PowerRoutine] : Operator → Int64 → Int64 → Except Fault Int64
  | power, a, b => Checked.power a b
  | multiply, a, b => Checked.multiply a b
  | divide, a, b => Checked.divide a b
  | add, a, b => Checked.add a b
  | subtract, a, b => Checked.subtract a b
  | equal, a, b => .ok (Checked.equal a b)
  | less, a, b => .ok (Checked.less a b)
  | greater, a, b => .ok (Checked.greater a b)

end Operator

end LineBasic
