/-!
# Rounding to 53 significant bits

Powers are computed on binary significands of 53 bits. A number with more significant bits is
replaced by the nearest one that has at most 53; halfway between two of these, the one whose
significand is even is taken.
-/
namespace LineBasic.Significand

/-- The multiple of `unit` nearest to `n`, halfway cases going to the even multiple. -/
def nearestMultiple (unit n : Nat) : Nat :=
  let quotient := n / unit
  let remainder := n % unit
  if 2 * remainder < unit ∨ (2 * remainder = unit ∧ quotient % 2 = 0) then quotient * unit
  else (quotient + 1) * unit

/-- The number of significant bits of `n` beyond 53. -/
def excessBits (n : Nat) : Nat :=
  n.log2 + 1 - 53

/-- The natural number with at most 53 significant bits nearest to `n`. -/
def roundNat (n : Nat) : Nat :=
  nearestMultiple (Nat.pow 2 (excessBits n)) n

def round (v : Int) : Int :=
  if v < 0 then -(roundNat v.natAbs : Int) else (roundNat v.natAbs : Int)

@[simp]
theorem nearestMultiple_one (n : Nat) : nearestMultiple 1 n = n := by
  simp [nearestMultiple, Nat.mod_one]

theorem roundNat_of_log2_lt {n : Nat} (h : n.log2 < 53) : roundNat n = n := by
  have : excessBits n = 0 := by unfold excessBits; omega
  simp [roundNat, this]

end LineBasic.Significand
