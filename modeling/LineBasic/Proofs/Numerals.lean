import LineBasic.Decimal
import Mathlib.Data.List.Induction

/-!
# Numerals

Which texts are numbers, and which numbers they are, said digit by digit: a further digit behind a
numeral makes ten times as much and its own value. A sign may stand in front, and leading zeros
count for nothing. Reading a word finds just these numbers, as far as the word can hold them.
-/
namespace LineBasic.Decimal

/-- One or more digits that stand for a number. -/
inductive Numeral : List Char → Nat → Prop
  | digit {d : Char} : d.isDigit = true → Numeral [d] (d.toNat - '0'.toNat)
  | concat {ds : List Char} {n : Nat} {d : Char} : Numeral ds n → d.isDigit = true →
      Numeral (ds ++ [d]) (10 * n + (d.toNat - '0'.toNat))

/-- A numeral, perhaps with a sign in front of it. -/
inductive SignedNumeral : List Char → Int → Prop
  | plain {ds : List Char} {n : Nat} : Numeral ds n → SignedNumeral ds n
  | plus {ds : List Char} {n : Nat} : Numeral ds n → SignedNumeral ('+' :: ds) n
  | minus {ds : List Char} {n : Nat} : Numeral ds n → SignedNumeral ('-' :: ds) (-n)

variable {cs : List Char} {n : Nat}

theorem value_concat (ds : List Char) (d : Char) :
    value (ds ++ [d]) = 10 * value ds + (d.toNat - '0'.toNat) := by
  simp [value, Nat.ofDigitChars_append, Nat.ofDigitChars_cons]

theorem Numeral.isDigit (h : Numeral cs n) : ∀ d ∈ cs, d.isDigit = true := by
  induction h with
  | digit hd => simpa using hd
  | concat _ hd ih =>
    intro c hc
    rcases List.mem_append.mp hc with hc | hc
    · exact ih c hc
    · rwa [List.mem_singleton.mp hc]

theorem Numeral.value_eq (h : Numeral cs n) : value cs = n := by
  induction h with
  | digit _ => simp [value, Nat.ofDigitChars_cons]
  | concat _ _ ih => rw [value_concat, ih]

theorem Numeral.ne_nil (h : Numeral cs n) : cs ≠ [] := by
  cases h <;> simp

theorem numeral_value (hne : cs ≠ []) (hdigits : ∀ d ∈ cs, d.isDigit = true) :
    Numeral cs (value cs) := by
  induction cs using List.reverseRecOn with
  | nil => exact absurd rfl hne
  | append_singleton ds d ih =>
    have hd : d.isDigit = true := hdigits d (by simp)
    rw [value_concat]
    by_cases hds : ds = []
    · subst hds
      have hzero : 10 * value [] + (d.toNat - '0'.toNat) = d.toNat - '0'.toNat := Nat.zero_add _
      rw [hzero]
      exact .digit hd
    · exact .concat (ih hds fun c hc => hdigits c (List.mem_append_left _ hc)) hd

theorem natural?_eq_some_iff : natural? cs = some n ↔ Numeral cs n := by
  unfold natural?
  constructor
  · intro h
    split at h
    · rename_i hcs
      cases h
      exact numeral_value hcs.1 (List.all_eq_true.mp hcs.2)
    · cases h
  · intro h
    rw [if_pos ⟨h.ne_nil, List.all_eq_true.mpr h.isDigit⟩, h.value_eq]

theorem not_numeral_cons {c : Char} (hc : c.isDigit = false) : ¬ Numeral (c :: cs) n := by
  intro h
  have hdigit := h.isDigit c List.mem_cons_self
  rw [hc] at hdigit
  cases hdigit

theorem signedNumeral_plus_iff {v : Int} :
    SignedNumeral ('+' :: cs) v ↔ ∃ n : Nat, Numeral cs n ∧ v = n := by
  constructor
  · intro h
    cases h with
    | plain h => exact absurd h (not_numeral_cons (by decide))
    | plus h => exact ⟨_, h, rfl⟩
  · rintro ⟨n, h, rfl⟩
    exact .plus h

theorem signedNumeral_minus_iff {v : Int} :
    SignedNumeral ('-' :: cs) v ↔ ∃ n : Nat, Numeral cs n ∧ v = -n := by
  constructor
  · intro h
    cases h with
    | plain h => exact absurd h (not_numeral_cons (by decide))
    | minus h => exact ⟨_, h, rfl⟩
  · rintro ⟨n, h, rfl⟩
    exact .minus h

theorem signedNumeral_iff_of_unsigned {v : Int} (hplus : ∀ ds, cs ≠ '+' :: ds)
    (hminus : ∀ ds, cs ≠ '-' :: ds) : SignedNumeral cs v ↔ ∃ n : Nat, Numeral cs n ∧ v = n := by
  constructor
  · intro h
    cases h with
    | plain h => exact ⟨_, h, rfl⟩
    | plus _ => exact absurd rfl (hplus _)
    | minus _ => exact absurd rfl (hminus _)
  · rintro ⟨n, h, rfl⟩
    exact .plain h

/-- Reading finds the number of a numeral, if a word holds it, and nothing else. -/
theorem signed?_eq_some_iff {w : Int64} : signed? cs = some w ↔ SignedNumeral cs w.toInt := by
  have hread (f : Nat → Int) (ds : List Char) :
      ((natural? ds).bind fun n => Range.signed? (f n)) = some w ↔
        ∃ n, Numeral ds n ∧ w.toInt = f n := by
    simp only [Option.bind_eq_some_iff, natural?_eq_some_iff, Range.signed?_eq_some_iff]
  unfold signed?
  split
  · rw [signedNumeral_plus_iff]
    exact hread _ _
  · rw [signedNumeral_minus_iff]
    exact hread _ _
  · rename_i hplus hminus
    rw [signedNumeral_iff_of_unsigned hplus hminus]
    exact hread _ _

end LineBasic.Decimal
