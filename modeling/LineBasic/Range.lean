/-!
# Machine ranges

Line numbers and number literals are unsigned 64-bit words; values are signed ones. A number is
taken into a word only when the word holds exactly that number, so nothing ever wraps.
-/
namespace LineBasic

abbrev LineNumber := UInt64

namespace Range

/-- The unsigned word that holds `n`, if there is one. -/
def unsigned? (n : Nat) : Option UInt64 :=
  if n ≤ 18446744073709551615 then some (UInt64.ofNat n) else none

/-- The signed word that holds `v`, if there is one. -/
def signed? (v : Int) : Option Int64 :=
  if -9223372036854775808 ≤ v ∧ v ≤ 9223372036854775807 then some (Int64.ofInt v) else none

theorem unsigned?_eq_some_iff {n : Nat} {w : UInt64} : unsigned? n = some w ↔ w.toNat = n := by
  unfold unsigned?
  constructor
  · intro h
    split at h
    · cases h
      simp only [UInt64.toNat_ofNat']
      omega
    · cases h
  · rintro rfl
    have := w.toNat_lt
    rw [if_pos (by omega), UInt64.ofNat_toNat]

theorem unsigned?_toNat (w : UInt64) : unsigned? w.toNat = some w :=
  unsigned?_eq_some_iff.2 rfl

theorem signed?_eq_some_iff {v : Int} {w : Int64} : signed? v = some w ↔ w.toInt = v := by
  unfold signed?
  constructor
  · intro h
    split at h
    · cases h
      exact Int64.toInt_ofInt_of_le (by omega) (by omega)
    · cases h
  · rintro rfl
    have := w.toInt_lt
    have := w.le_toInt
    rw [if_pos (by omega), Int64.ofInt_toInt]

end Range

end LineBasic
