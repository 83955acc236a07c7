import LineBasic.Range

/-!
# Decimal numbers

Numbers are written without leading zeros and with a minus sign where negative. Reading is more
lenient: leading zeros and a plus sign are accepted, and the digits are the ten of ASCII.
-/
namespace LineBasic.Decimal

def value (digits : List Char) : Nat :=
  Nat.ofDigitChars 10 digits 0

/-- Reads a non-empty run of digits. -/
def natural? (cs : List Char) : Option Nat :=
  if cs ≠ [] ∧ cs.all Char.isDigit then some (value cs) else none

/-- Reads an unsigned word; a plus sign may stand in front. -/
def unsigned? : List Char → Option UInt64
  | '+' :: cs => (natural? cs).bind Range.unsigned?
  | cs => (natural? cs).bind Range.unsigned?

/-- Reads a signed word; a plus or minus sign may stand in front. -/
def signed? : List Char → Option Int64
  | '+' :: cs => (natural? cs).bind fun n => Range.signed? n
  | '-' :: cs => (natural? cs).bind fun n => Range.signed? (-n)
  | cs => (natural? cs).bind fun n => Range.signed? n

def ofNat (n : Nat) : String :=
  String.ofList (Nat.toDigits 10 n)

def ofInt (v : Int) : String :=
  if v < 0 then "-" ++ ofNat v.natAbs else ofNat v.natAbs

@[simp]
theorem value_toDigits (n : Nat) : value (Nat.toDigits 10 n) = n :=
  Nat.ofDigitChars_ten_toDigits

theorem natural?_toDigits (n : Nat) : natural? (Nat.toDigits 10 n) = some n := by
  have digits : (Nat.toDigits 10 n).all Char.isDigit = true :=
    List.all_eq_true.2 fun _ hc => Nat.isDigit_of_mem_toDigits (by decide) (by decide) hc
  simp [natural?, digits, Nat.toDigits_ne_nil]

end LineBasic.Decimal
