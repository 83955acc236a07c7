import Mathlib
import LineBasic.Proofs.FloatingPowers

/-!
# Overflowing powers

Whether a power overflows is decided on the answer of the power routine, which is rounded. The
doubles next to `2 ^ 63` are `2 ^ 63 - 1024` and `2 ^ 63 + 2048`, and from exponent two on no power
but `2 ^ 63` itself stands between them. So no accurate routine carries a power over the bound, and
a power overflows just when it leaves the range of values. With exponent one every value is a power,
and the 512 largest become `2 ^ 63` as doubles: these overflow although they are values.
-/
namespace LineBasic

/-! ### Powers near the bound -/

/-- The magnitude is `2 ^ 63` or not nearer to it than the next doubles. -/
def ClearOfBound (v : ℤ) : Prop :=
  |v| = 2 ^ 63 ∨ |v| ≤ 2 ^ 63 - 1024 ∨ 2 ^ 63 + 2048 ≤ |v|

/-- The largest base whose power stays below `2 ^ 63`, found bit by bit. -/
def baseBelow (n : ℕ) : ℕ :=
  (List.range 32).foldr
    (fun bit base => if (base + 2 ^ bit) ^ n < 2 ^ 63 then base + 2 ^ bit else base) 0

theorem pow_baseBelow_clear : ∀ n < 64, 2 ≤ n →
    baseBelow n ^ n ≤ 2 ^ 63 - 1024 ∧
    ((baseBelow n + 1) ^ n = 2 ^ 63 ∨ 2 ^ 63 + 2048 ≤ (baseBelow n + 1) ^ n) ∧
    2 ^ 63 + 2048 ≤ (baseBelow n + 2) ^ n := by
  decide +kernel

theorem clearOfBound_pow {x : ℤ} {n : ℕ} (hx : 2 ≤ |x|) (hn : 2 ≤ n) : ClearOfBound (x ^ n) := by
  by_cases hlarge : 64 ≤ n
  · have := two_pow_le_abs_pow hx hlarge
    right; right
    omega
  · obtain ⟨hbelow, hnext, habove⟩ := pow_baseBelow_clear n (by omega) hn
    generalize baseBelow n = base at *
    have habs : |x ^ n| = ((x.natAbs ^ n : ℕ) : ℤ) := by
      rw [Int.abs_eq_natAbs, Int.natAbs_pow]
    unfold ClearOfBound
    rw [habs]
    rcases lt_trichotomy x.natAbs (base + 1) with hlt | heq | hgt
    · have : x.natAbs ^ n ≤ base ^ n := Nat.pow_le_pow_left (by omega) n
      omega
    · rw [heq]
      omega
    · have : (base + 2) ^ n ≤ x.natAbs ^ n := Nat.pow_le_pow_left (by omega) n
      omega

namespace Double

theorem abs_truncate (q : ℚ) : |truncate q| = ⌊|q|⌋ := by
  unfold truncate
  split
  · rename_i h
    rw [abs_of_nonneg h, abs_of_nonneg (Int.floor_nonneg.mpr h)]
  · rename_i h
    have hneg : q < 0 := not_le.mp h
    rw [abs_of_neg hneg, Int.floor_neg, abs_of_nonpos (Int.ceil_nonpos.mpr hneg.le)]

theorem isDouble_of_abs_eq_bound {v : ℤ} (h : |v| = 2 ^ 63) : IsDouble v := by
  rcases (abs_eq (by norm_num)).mp h with rfl | rfl
  · exact ⟨1, 63, by norm_num, by norm_num, by norm_num, by norm_num⟩
  · exact ⟨-1, 63, by norm_num, by norm_num, by norm_num, by norm_num⟩

/-- Below the bound, three fifths of a unit do not lead up to it. -/
theorem abs_lt_bound_of_close {q : ℚ} {v : ℤ} (hzero : v ≠ 0) (hv : |v| ≤ 2 ^ 63 - 1024)
    (hclose : |q - v| ≤ 3 / 5 * ulp v) : |q| < 2 ^ 63 := by
  have hvq : |(v : ℚ)| ≤ 2 ^ 63 - 1024 := by exact_mod_cast hv
  have hplace : lastPlace (v : ℚ) ≤ 10 :=
    lastPlace_le (by exact_mod_cast hzero) (by norm_num) (by norm_num; linarith)
  have hulp : ulp (v : ℚ) ≤ 1024 :=
    calc ulp (v : ℚ) ≤ 2 ^ (10 : ℤ) := zpow_le_zpow_right₀ (by norm_num) hplace
      _ = 1024 := by norm_num
  have := abs_sub_abs_le_abs_sub q v
  linarith

/-- Beyond the bound, three fifths of a unit do not lead back to it. -/
theorem bound_lt_abs_of_close {q : ℚ} {v : ℤ} (hv : 2 ^ 63 + 2048 ≤ |v|)
    (hclose : |q - v| ≤ 3 / 5 * ulp v) : 2 ^ 63 + 1 ≤ |q| := by
  have hvq : 2 ^ 63 + 2048 ≤ |(v : ℚ)| := by exact_mod_cast hv
  have hulp : 2 ^ 52 * ulp (v : ℚ) ≤ |(v : ℚ)| := mul_ulp_le (by linarith)
  have := abs_sub_abs_le_abs_sub (v : ℚ) q
  rw [abs_sub_comm] at this
  linarith

end Double

namespace Checked

theorem fit_ne_error {v : ℤ} (h : |v| < 2 ^ 63) (fault : Fault) : fit v ≠ .error fault := by
  rw [abs_lt] at h
  rw [ne_eq, fit_eq_error_iff]
  omega

section Accurate

variable {pow : ℤ → ℤ → Double} (hpow : Double.AccuratePower pow)
include hpow

/-- An accurate answer to a power that is clear of the bound overflows just when the power does. -/
theorem ofDouble_eq_error_iff_of_clear {x y v : ℤ} (hx : IsDouble x) (hy : IsDouble y)
    (hbase : x ≠ 0) (hv : (x : ℚ) ^ y = v) (hclear : ClearOfBound v) (fault : Fault) :
    ofDouble (pow x y) = .error fault ↔ fit v = .error fault := by
  have hzero : v ≠ 0 := by
    intro h
    rw [h, Int.cast_zero] at hv
    exact zpow_ne_zero y (by exact_mod_cast hbase) hv
  have hclose := hpow.close hx hy hbase
  rw [hv] at hclose
  rcases hclear with hbound | hbelow | habove
  · have hdouble : IsDouble ((x : ℚ) ^ y) := by
      rw [hv]
      exact Double.isDouble_of_abs_eq_bound hbound
    rw [hpow.exact hx hy (.inl hbase) hdouble, ofDouble_finite, hv, Double.truncate_intCast]
  · rcases hclose with ⟨q, h, heq, hq⟩ | ⟨-, hlarge⟩
    · have hlt := Double.abs_lt_bound_of_close hzero hbelow hq
      have htruncate : |Double.truncate q| < 2 ^ 63 := by
        rw [Double.abs_truncate, Int.floor_lt]
        exact_mod_cast hlt
      rw [heq, ofDouble_finite]
      exact iff_of_false (fit_ne_error htruncate fault) (fit_ne_error (by omega) fault)
    · have := Double.abs_intCast_le_largest (k := 63) (by norm_num) (v := v) (by omega)
      linarith
  · have hfit : fit v = .error .overflow := fit_of_large (by omega)
    have hanswer : ofDouble (pow x y) = .error .overflow := by
      rcases hclose with ⟨q, h, heq, hq⟩ | ⟨heq, -⟩
      · have hle := Double.bound_lt_abs_of_close habove hq
        have htruncate : 2 ^ 63 + 1 ≤ |Double.truncate q| := by
          rw [Double.abs_truncate, Int.le_floor]
          exact_mod_cast hle
        rw [heq, ofDouble_finite]
        exact fit_of_large (by omega)
      · rw [heq, ofDouble]
    rw [hanswer, hfit]

end Accurate

end Checked

/-! ### Rounded operands -/

namespace Significand

theorem le_abs_round_of_le {m v : ℤ} (hm : m < 2 ^ 53) (h : m ≤ |v|) : m ≤ |round v| := by
  have := le_abs_round v
  omega

theorem le_round_of_le {m v : ℤ} (hpos : 0 < m) (hm : m < 2 ^ 53) (h : m ≤ v) : m ≤ round v := by
  have hsign := round_neg_iff v
  have hle := le_abs_round_of_le hm (h.trans (le_abs_self v))
  rwa [abs_of_nonneg (by omega)] at hle

theorem exists_round_of_long {v : ℤ} (hlow : 2 ^ 62 ≤ |v|) (hhigh : |v| < 2 ^ 63) :
    ∃ k : ℤ, round v = k * 1024 ∧
      (2 * |v - k * 1024| < 1024 ∨ 2 * |v - k * 1024| = 1024 ∧ k % 2 = 0) := by
  obtain ⟨k, hk, hnear⟩ := exists_round v
  have hlog : v.natAbs.log2 = 62 := by
    rw [Int.abs_eq_natAbs] at hlow hhigh
    rw [Nat.log2_eq_iff (by omega)]
    omega
  have hexcess : excessBits v.natAbs = 10 := by
    unfold excessBits
    omega
  rw [hexcess] at hk hnear
  refine ⟨k, by rw [hk]; norm_num, ?_⟩
  rw [← Double.isNearest_div_iff (by norm_num)]
  norm_num at hnear ⊢
  exact hnear

/-- Only the 512 largest values leave the range of values when they become doubles. -/
theorem round_out_of_range_iff (w : Int64) :
    (round w.toInt < -2 ^ 63 ∨ 2 ^ 63 - 1 < round w.toInt) ↔ 2 ^ 63 - 512 ≤ w.toInt := by
  have hhigh := w.toInt_lt
  have hlow := w.le_toInt
  generalize w.toInt = v at *
  by_cases hleast : v = -2 ^ 63
  · subst hleast
    decide
  · by_cases hlong : 2 ^ 62 ≤ |v|
    · obtain ⟨k, hk, hnear⟩ := exists_round_of_long hlong (by rw [abs_lt]; omega)
      rcases abs_cases (v - k * 1024) with habs | habs <;> omega
    · have hclose := abs_round_sub_le v
      rcases abs_cases v with hv | hv <;>
        rcases abs_cases (round v - v) with hdistance | hdistance <;> omega

end Significand

namespace Checked

theorem fit_of_large_base {x : ℤ} {n : ℕ} (hx : 2 ^ 32 ≤ |x|) (hn : 2 ≤ n) :
    fit (x ^ n) = .error .overflow := by
  apply fit_of_large
  calc (2 : ℤ) ^ 63 < (2 ^ 32) ^ 2 := by norm_num
    _ ≤ |x| ^ 2 := pow_le_pow_left₀ (by norm_num) hx 2
    _ ≤ |x| ^ n := pow_le_pow_right₀ (by omega) hn
    _ = |x ^ n| := (abs_pow x n).symm

theorem fit_of_large_exponent {x : ℤ} {n : ℕ} (hx : 2 ≤ |x|) (hn : 64 ≤ n) :
    fit (x ^ n) = .error .overflow := by
  have := two_pow_le_abs_pow hx hn
  exact fit_of_large (by omega)

/-- Operands that lose digits have powers far beyond the range, before and after rounding. -/
theorem fit_round_pow {a b : ℤ} (ha : 2 ≤ |a|) (hb : 2 ≤ b) :
    fit (Significand.round a ^ (Significand.round b).toNat) = fit (a ^ b.toNat) := by
  have hbase := Significand.le_abs_round_of_le (by norm_num) ha
  have hexponent := Significand.le_round_of_le (by norm_num) (by norm_num) hb
  by_cases hlongBase : 2 ^ 53 < |a|
  · have hround : 2 ^ 32 ≤ |Significand.round a| :=
      Significand.le_abs_round_of_le (by norm_num) (by omega)
    rw [fit_of_large_base (x := a) (by omega) (by omega), fit_of_large_base hround (by omega)]
  · by_cases hlongExponent : 2 ^ 53 < b
    · have hround : 64 ≤ Significand.round b :=
        Significand.le_round_of_le (by norm_num) (by norm_num) (by omega)
      rw [fit_of_large_exponent ha (by omega), fit_of_large_exponent hbase (by omega)]
    · rw [Significand.round_eq_self (by omega),
        Significand.round_eq_self (by rw [abs_of_nonneg] <;> omega)]

/-! ### When powers overflow -/

/-- The power is infinite, or its integer part is no value. -/
def LeavesRange (a b : ℤ) : Prop :=
  a = 0 ∧ b < 0 ∨ Double.truncate ((a : ℚ) ^ b) < -2 ^ 63 ∨
    2 ^ 63 - 1 < Double.truncate ((a : ℚ) ^ b)

/-- The first power of a value that becomes `2 ^ 63` as a double. -/
def RoundsToBound (a b : ℤ) : Prop :=
  2 ^ 63 - 512 ≤ a ∧ b = 1

theorem two_le_of_large {a b : ℤ} (h : ¬ |Double.truncate ((a : ℚ) ^ b)| ≤ 2 ^ 53) :
    2 ≤ |a| ∧ 1 ≤ b := by
  have hexponent : b ≠ 0 := by
    rintro rfl
    rw [zpow_zero, ← Int.cast_one, Double.truncate_intCast] at h
    exact h (by norm_num)
  have hbase : 2 ≤ |a| := by
    by_contra hunit
    have hle : |a| ≤ 1 := by omega
    rw [zpow_of_abs_le_one hle hexponent, Double.truncate_intCast] at h
    exact h ((abs_unit_power_le hle b).trans (by norm_num))
  refine ⟨hbase, ?_⟩
  by_contra hneg
  have hhalf := abs_zpow_le_half hbase (by omega : b < 0)
  rw [Double.truncate_of_abs_lt_one (by linarith)] at h
  exact h (by norm_num)

theorem powerBy_of_pole {pow : ℤ → ℤ → Double}
    (hpole : ∀ y : ℤ, IsDouble y → y < 0 → pow 0 y = .infinite) {a b : Int64}
    (h : a.toInt = 0 ∧ b.toInt < 0) : powerBy pow a b = .error .overflow := by
  have hbase := (Significand.round_eq_zero_iff a.toInt).mpr h.1
  have hexponent := (Significand.round_neg_iff b.toInt).mpr h.2
  rw [powerBy, hbase, hpole _ (Significand.isDouble_round b) hexponent, ofDouble]

section Accurate

variable {pow : ℤ → ℤ → Double} (hpow : Double.AccuratePower pow) {a b : Int64}
include hpow

theorem powerBy_of_exponent_one (hb : b.toInt = 1) :
    powerBy pow a b = fit (Significand.round a.toInt) := by
  have hround : Significand.round b.toInt = 1 := by
    rw [hb]
    decide
  have hpower : (Significand.round a.toInt : ℚ) ^ Significand.round b.toInt =
      (Significand.round a.toInt : ℤ) := by
    rw [hround, zpow_one]
  rw [powerBy_of_isDouble hpow (.inr (by omega)), hpower, Double.truncate_intCast]
  rw [hpower]
  exact Significand.isDouble_round a

theorem powerBy_eq_error_iff_of_two_le (ha : 2 ≤ |a.toInt|) (hb : 2 ≤ b.toInt) (fault : Fault) :
    powerBy pow a b = .error fault ↔ fit (a.toInt ^ b.toInt.toNat) = .error fault := by
  have hbase := Significand.le_abs_round_of_le (by norm_num) ha
  have hexponent := Significand.le_round_of_le (by norm_num) (by norm_num) hb
  have hne : Significand.round a.toInt ≠ 0 := by
    intro h
    simp [h] at hbase
  rw [powerBy, ofDouble_eq_error_iff_of_clear hpow (Significand.isDouble_round a)
    (Significand.isDouble_round b) hne (zpow_of_nonneg _ (by omega))
    (clearOfBound_pow hbase (by omega)), fit_round_pow ha hb]

theorem powerBy_ne_error_of_small (hdefined : ¬ (a.toInt = 0 ∧ b.toInt < 0))
    (hsmall : |Double.truncate ((a.toInt : ℚ) ^ b.toInt)| ≤ 2 ^ 53) (fault : Fault) :
    powerBy pow a b ≠ .error fault := by
  by_cases hparity : ForgetsParity a.toInt b.toInt
  · rw [powerBy_of_forgetsParity hpow hparity]
    exact nofun
  · rw [powerBy_of_small hpow hdefined hparity hsmall]
    exact fit_ne_error (by omega) fault

theorem powerBy_eq_error_iff (hpole : ∀ y : ℤ, IsDouble y → y < 0 → pow 0 y = .infinite)
    (fault : Fault) :
    powerBy pow a b = .error fault ↔ fault = .overflow ∧
      (LeavesRange a.toInt b.toInt ∨ RoundsToBound a.toInt b.toInt) := by
  unfold LeavesRange RoundsToBound
  by_cases hdefined : a.toInt = 0 ∧ b.toInt < 0
  · rw [powerBy_of_pole hpole hdefined]
    simp [hdefined, eq_comm]
  · -- Small powers fit. With exponent one a large power need not be clear of the bound, but nothing
    -- is rounded there except the base.
    by_cases hsmall : |Double.truncate ((a.toInt : ℚ) ^ b.toInt)| ≤ 2 ^ 53
    · refine iff_of_false (powerBy_ne_error_of_small hpow hdefined hsmall fault) ?_
      rintro ⟨-, (hpole | hout) | ⟨hbase, hone⟩⟩
      · exact hdefined hpole
      · rw [abs_le] at hsmall
        omega
      · rw [hone, zpow_one, Double.truncate_intCast, abs_le] at hsmall
        omega
    · obtain ⟨hbase, hexponent⟩ := two_le_of_large hsmall
      by_cases hone : b.toInt = 1
      · have hrange := Significand.round_out_of_range_iff a
        have := a.toInt_lt
        have := a.le_toInt
        rw [powerBy_of_exponent_one hpow hone, fit_eq_error_iff, hone, zpow_one,
          Double.truncate_intCast]
        refine and_congr_right fun _ => ?_
        omega
      · rw [powerBy_eq_error_iff_of_two_le hpow hbase (by omega), fit_eq_error_iff,
          zpow_of_nonneg _ (by omega), Double.truncate_intCast]
        refine and_congr_right fun _ => ?_
        omega

end Accurate

theorem nearestPower_zero_of_neg (y : ℤ) (_ : IsDouble y) (hy : y < 0) :
    Double.nearestPower 0 y = .infinite :=
  Double.nearestPower_of_pole ⟨rfl, hy⟩

/-- With every accurate power routine that is infinite at the negative powers of zero, and with the
powers of the machine, a power overflows just when it leaves the range of values, and there is no
other fault. The only exception is that the first powers of the 512 largest values overflow. -/
theorem power_fails_iff {pow : ℤ → ℤ → Double} (hpow : Double.AccuratePower pow)
    (hpole : ∀ y : ℤ, IsDouble y → y < 0 → pow 0 y = .infinite) (a b : Int64) (fault : Fault) :
    (powerBy pow a b = .error fault ↔ fault = .overflow ∧
      (LeavesRange a.toInt b.toInt ∨ RoundsToBound a.toInt b.toInt)) ∧
    (power a b = .error fault ↔ fault = .overflow ∧
      (LeavesRange a.toInt b.toInt ∨ RoundsToBound a.toInt b.toInt)) := by
  constructor
  · exact powerBy_eq_error_iff hpow hpole fault
  · rw [power_eq_powerBy_nearestPower]
    exact powerBy_eq_error_iff Double.accurate_nearestPower nearestPower_zero_of_neg fault

/-- The least square beyond the range of values. -/
theorem power_fails_iff_at_square :
    Double.AccuratePower Double.nearestPower ∧
    (∀ y : ℤ, IsDouble y → y < 0 → Double.nearestPower 0 y = .infinite) ∧
    LeavesRange (3037000500 : Int64).toInt (2 : Int64).toInt ∧
    powerBy Double.nearestPower 3037000500 2 = .error .overflow ∧
    power 3037000500 2 = .error .overflow := by
  have hleaves : LeavesRange (3037000500 : Int64).toInt (2 : Int64).toInt := by
    have hbase : (3037000500 : Int64).toInt = 3037000500 := by decide
    have hexponent : (2 : Int64).toInt = 2 := by decide
    rw [hbase, hexponent, LeavesRange, zpow_of_nonneg _ (by norm_num), Double.truncate_intCast]
    right; right
    decide
  have hfails := power_fails_iff Double.accurate_nearestPower nearestPower_zero_of_neg
    3037000500 2 .overflow
  exact ⟨Double.accurate_nearestPower, nearestPower_zero_of_neg, hleaves,
    hfails.1.mpr ⟨rfl, .inl hleaves⟩, hfails.2.mpr ⟨rfl, .inl hleaves⟩⟩

/-- The first power of the largest value is a value, and overflows: its base becomes `2 ^ 63`. -/
theorem largest_value_overflows :
    Double.AccuratePower Double.nearestPower ∧
    (∀ y : ℤ, IsDouble y → y < 0 → Double.nearestPower 0 y = .infinite) ∧
    ¬ LeavesRange (9223372036854775807 : Int64).toInt (1 : Int64).toInt ∧
    powerBy Double.nearestPower 9223372036854775807 1 = .error .overflow ∧
    power 9223372036854775807 1 = .error .overflow := by
  have hmachine : power 9223372036854775807 1 = .error .overflow := by decide
  refine ⟨Double.accurate_nearestPower, nearestPower_zero_of_neg, ?_, ?_, hmachine⟩
  · have hbase : (9223372036854775807 : Int64).toInt = 9223372036854775807 := by decide
    have hexponent : (1 : Int64).toInt = 1 := by decide
    rw [hbase, hexponent, LeavesRange, zpow_one, Double.truncate_intCast]
    norm_num
  · rw [← power_eq_powerBy_nearestPower, hmachine]

end Checked

end LineBasic
