import LineBasic.Checked
import LineBasic.Significand

/-!
# Powers

The base and the exponent are each rounded to 53 significant bits, and their power is left to a
routine that works on such numbers and rounds its result too, so large results lose their low
digits. A fractional result is truncated toward zero. Zero to a negative power is infinite, which
counts as overflow like every other result beyond the range of values.
-/
namespace LineBasic

/-- A routine for powers of numbers with at most 53 significant bits: the power truncated toward
zero, or nothing if it is not finite. Routines differ in the last digits of large powers. -/
class PowerRoutine where
  truncatedPower? : Int → Int → Option Int

/-- The power rounded to 53 significant bits. From base two on, the exponent 64 leaves the range of
values, and a negative exponent leaves a proper fraction. -/
def Significand.roundedPower? (base exponent : Int) : Option Int :=
  if exponent = 0 then some 1
  else if base = 0 ∧ exponent < 0 then none
  else if base.natAbs ≤ 1 then some (if exponent % 2 = 0 then base * base else base)
  else if exponent < 0 then some 0
  else if 64 ≤ exponent then none
  else some (round (Int.pow base exponent.toNat))

instance : PowerRoutine where
  truncatedPower? := Significand.roundedPower?

def Checked.power [PowerRoutine] (a b : Int64) : Except Fault Int64 :=
  match PowerRoutine.truncatedPower? (Significand.round a.toInt) (Significand.round b.toInt) with
  | some v => fit v
  | none => .error .overflow

end LineBasic
