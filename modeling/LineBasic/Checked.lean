import LineBasic.Range

/-!
# Checked arithmetic

Values are signed 64-bit words. Each operation computes its exact result over the integers and
hands it on only if a value holds it; otherwise the operation overflows. Division truncates toward
zero, and a zero divisor is a fault of its own.
-/
namespace LineBasic

/-- Why an arithmetic operation has no value. -/
inductive Fault
  | overflow
  | divisionByZero
  deriving DecidableEq, Inhabited

namespace Checked

/-- The value equal to an exact result. -/
def fit (v : Int) : Except Fault Int64 :=
  match Range.signed? v with
  | some w => .ok w
  | none => .error .overflow

def literal (n : UInt64) : Except Fault Int64 :=
  fit n.toNat

/-- The value of a number literal with a minus sign directly in front. The least value is written
this way, although its literal alone overflows. -/
def negativeLiteral (n : UInt64) : Except Fault Int64 :=
  fit (-n.toNat)

def negate (a : Int64) : Except Fault Int64 :=
  fit (-a.toInt)

def add (a b : Int64) : Except Fault Int64 :=
  fit (a.toInt + b.toInt)

def subtract (a b : Int64) : Except Fault Int64 :=
  fit (a.toInt - b.toInt)

def multiply (a b : Int64) : Except Fault Int64 :=
  fit (a.toInt * b.toInt)

def divide (a b : Int64) : Except Fault Int64 :=
  if b.toInt = 0 then .error .divisionByZero else fit (Int.tdiv a.toInt b.toInt)

/-- One stands for true and zero for false. -/
def truth (b : Bool) : Int64 :=
  if b then 1 else 0

def equal (a b : Int64) : Int64 :=
  truth (decide (a.toInt = b.toInt))

def less (a b : Int64) : Int64 :=
  truth (decide (a.toInt < b.toInt))

def greater (a b : Int64) : Int64 :=
  truth (decide (b.toInt < a.toInt))

theorem fit_eq_ok_iff {v : Int} {w : Int64} : fit v = .ok w ↔ w.toInt = v := by
  rw [← Range.signed?_eq_some_iff, fit]
  split <;> simp_all

theorem fit_eq_error_iff {v : Int} {f : Fault} :
    fit v = .error f ↔ f = .overflow ∧ (v < -9223372036854775808 ∨ 9223372036854775807 < v) := by
  unfold fit Range.signed?
  split
  · rename_i h
    split at h
    · simp only [reduceCtorEq, false_iff]
      omega
    · cases h
  · rename_i h
    split at h
    · cases h
    · constructor
      · intro hf
        cases hf
        exact ⟨rfl, by omega⟩
      · rintro ⟨rfl, _⟩
        rfl

end Checked

end LineBasic
