import Mathlib
import LineBasic.Checked.Power
import LineBasic.Proofs.Doubles

/-!
# Powers in floating point

A power of two values is asked from a power routine on doubles, and its answer is truncated. Little
is required of the routine: a power that is a double is met exactly, and any other within three
fifths of a unit in the last place. One such routine rounds the exact power to the nearest double,
and with it the powers are those of `Checked.power`. With every such routine small powers are exact,
except that the base -1 forgets the parity of exponents beyond 53 bits.
-/
namespace LineBasic

namespace Double

/-- The integer part, toward zero. -/
def truncate (q : ℚ) : ℤ := if 0 ≤ q then ⌊q⌋ else ⌈q⌉

@[simp]
theorem truncate_intCast (v : ℤ) : truncate v = v := by
  simp [truncate]

theorem truncate_of_abs_lt_one {q : ℚ} (h : |q| < 1) : truncate q = 0 := by
  rw [abs_lt] at h
  unfold truncate
  split
  · rw [Int.floor_eq_zero_iff]
    exact ⟨by assumption, h.2⟩
  · rw [Int.ceil_eq_zero_iff]
    exact ⟨h.1, by linarith⟩

/-- A routine on doubles, with its answers truncated. -/
abbrev routine (pow : ℤ → ℤ → Double) : PowerRoutine where
  truncatedPower? x y :=
    match pow x y with
    | .finite q _ => some (truncate q)
    | .infinite | .nan => none

/-- What is required of a power routine, asked for whole doubles only: a power that is a double is
met exactly, and any other within three fifths of its unit in the last place, or by infinity if it
is beyond the largest double. -/
structure AccuratePower (pow : ℤ → ℤ → Double) : Prop where
  exact : ∀ {x y : ℤ}, IsDouble x → IsDouble y → (x ≠ 0 ∨ 0 ≤ y) →
    ∀ h : IsDouble ((x : ℚ) ^ y), pow x y = .finite ((x : ℚ) ^ y) h
  close : ∀ {x y : ℤ}, IsDouble x → IsDouble y → x ≠ 0 →
    (∃ q h, pow x y = .finite q h ∧ |q - (x : ℚ) ^ y| ≤ 3 / 5 * ulp ((x : ℚ) ^ y)) ∨
      pow x y = .infinite ∧ largest < |(x : ℚ) ^ y|

/-- The power routine that rounds the exact power. Zero has no negative powers. -/
def nearestPower (x y : ℤ) : Double :=
  if x = 0 ∧ y < 0 then .infinite else nearest ((x : ℚ) ^ y)

theorem nearestPower_of_pole {x y : ℤ} (h : x = 0 ∧ y < 0) : nearestPower x y = .infinite :=
  if_pos h

theorem nearestPower_of_defined {x y : ℤ} (h : ¬ (x = 0 ∧ y < 0)) :
    nearestPower x y = nearest ((x : ℚ) ^ y) :=
  if_neg h

theorem accurate_nearestPower : AccuratePower nearestPower where
  exact := by
    intro x y _ _ hdefined h
    rw [nearestPower_of_defined (by omega), nearest_of_isDouble h]
  close := by
    intro x y _ _ hx
    rw [nearestPower_of_defined (by omega)]
    by_cases h : |rounded ((x : ℚ) ^ y)| ≤ largest
    · left
      refine ⟨_, isDouble_rounded h, dif_pos h, ?_⟩
      linarith [abs_rounded_sub_le ((x : ℚ) ^ y), ulp_pos ((x : ℚ) ^ y)]
    · right
      refine ⟨dif_neg h, ?_⟩
      by_contra hle
      exact h (abs_rounded_le_largest (not_lt.mp hle))

end Double

/-! ### Exact powers -/

theorem zpow_of_nonneg (x : ℤ) {y : ℤ} (hy : 0 ≤ y) :
    (x : ℚ) ^ y = ((x ^ y.toNat : ℤ) : ℚ) := by
  rw [Int.cast_pow, ← zpow_natCast, Int.toNat_of_nonneg hy]

theorem zpow_of_abs_le_one {x y : ℤ} (hx : |x| ≤ 1) (hy : y ≠ 0) :
    (x : ℚ) ^ y = ((if y % 2 = 0 then x * x else x : ℤ) : ℚ) := by
  rw [abs_le] at hx
  obtain rfl | rfl | rfl : x = -1 ∨ x = 0 ∨ x = 1 := by omega
  · split
    · rename_i heven
      simpa using (Int.even_iff.mpr heven).neg_one_zpow
    · rename_i hodd
      simpa using (Int.odd_iff.mpr (by omega)).neg_one_zpow
  · simp [zero_zpow y hy]
  · simp

theorem abs_unit_power_le {x : ℤ} (hx : |x| ≤ 1) (y : ℤ) :
    |if y % 2 = 0 then x * x else x| ≤ 1 := by
  rw [abs_le] at hx
  obtain rfl | rfl | rfl : x = -1 ∨ x = 0 ∨ x = 1 := by omega
  all_goals split <;> norm_num

theorem two_pow_le_abs_pow {x : ℤ} {n : ℕ} (hx : 2 ≤ |x|) (hn : 64 ≤ n) : 2 ^ 64 ≤ |x ^ n| :=
  calc (2 : ℤ) ^ 64 ≤ 2 ^ n := pow_le_pow_right₀ (by norm_num) hn
    _ ≤ |x| ^ n := pow_le_pow_left₀ (by norm_num) hx n
    _ = |x ^ n| := (abs_pow x n).symm

theorem abs_zpow_le_half {x y : ℤ} (hx : 2 ≤ |x|) (hy : y < 0) : |(x : ℚ) ^ y| ≤ 1 / 2 := by
  have hxq : (2 : ℚ) ≤ |(x : ℚ)| := by exact_mod_cast hx
  calc |(x : ℚ) ^ y| = |(x : ℚ)| ^ y := abs_zpow _ _
    _ ≤ |(x : ℚ)| ^ (-1 : ℤ) := zpow_le_zpow_right₀ (by linarith) (by omega)
    _ ≤ 1 / 2 := by
      rw [zpow_neg_one, one_div]
      exact inv_anti₀ (by norm_num) hxq

namespace Significand

theorem isDouble_round (w : Int64) : IsDouble (round w.toInt) := by
  have hw : |w.toInt| ≤ 2 ^ 63 := by
    have := w.toInt_lt
    have := w.le_toInt
    rw [abs_le]
    omega
  rw [← Double.rounded_intCast]
  exact Double.isDouble_rounded
    (Double.abs_rounded_le_largest (Double.abs_intCast_le_largest (by norm_num) hw))

end Significand

namespace Checked

/-- The value of a double, truncated. The bounds are the least and the largest value as doubles, so
the upper one is already beyond the range. -/
def ofDouble : Double → Except Fault Int64
  | .finite q _ =>
    if Double.truncate q < Significand.round Int64.minValue.toInt ∨
        Significand.round Int64.maxValue.toInt ≤ Double.truncate q then .error .overflow
    else .ok (Int64.ofInt (Double.truncate q))
  | .infinite => .error .overflow
  | .nan => .error .overflow

/-- Powers with a given power routine: both operands become doubles first. -/
def powerBy (pow : ℤ → ℤ → Double) (a b : Int64) : Except Fault Int64 :=
  ofDouble (pow (Significand.round a.toInt) (Significand.round b.toInt))

/-- Truncated doubles are integers, so between the bounds stand just the values. -/
theorem ofDouble_finite {q : ℚ} (h : IsDouble q) :
    ofDouble (.finite q h) = fit (Double.truncate q) := by
  have hmin : Significand.round Int64.minValue.toInt = -9223372036854775808 := by decide
  have hmax : Significand.round Int64.maxValue.toInt = 9223372036854775808 := by decide
  rw [ofDouble, hmin, hmax]
  symm
  split
  · exact fit_eq_error_iff.mpr ⟨rfl, by omega⟩
  · exact fit_eq_ok_iff.mpr (Int64.toInt_ofInt_of_le (by omega) (by omega))

/-- The machine may compute its powers with any routine on doubles. -/
theorem power_routine (pow : ℤ → ℤ → Double) (a b : Int64) :
    @power (Double.routine pow) a b = powerBy pow a b := by
  unfold power powerBy PowerRoutine.truncatedPower? Double.routine
  dsimp only
  cases pow (Significand.round a.toInt) (Significand.round b.toInt) with
  | finite q h => exact (ofDouble_finite h).symm
  | infinite | nan => rfl

theorem fit_of_large {v : ℤ} (h : 2 ^ 63 < |v|) : fit v = .error .overflow := by
  rw [lt_abs] at h
  exact fit_eq_error_iff.mpr ⟨rfl, by omega⟩

theorem ofDouble_nearest_intCast (v : ℤ) :
    ofDouble (.nearest v) = fit (Significand.round v) := by
  by_cases h : |Double.rounded v| ≤ Double.largest
  · rw [Double.nearest, dif_pos h, ofDouble_finite, Double.rounded_intCast, Double.truncate_intCast]
  · rw [Double.nearest, dif_neg h, ofDouble]
    have hlt : (2 : ℚ) ^ 64 < |(Significand.round v : ℚ)| := by
      rw [← Double.rounded_intCast]
      exact (Double.two_pow_le_largest (by norm_num)).trans_lt (not_le.mp h)
    have hle : 2 ^ 64 ≤ |Significand.round v| := by exact_mod_cast hlt.le
    exact (fit_of_large (by omega)).symm

section Accurate

variable {pow : ℤ → ℤ → Double} (hpow : Double.AccuratePower pow) {a b : Int64}
include hpow

theorem powerBy_of_isDouble
    (hdefined : Significand.round a.toInt ≠ 0 ∨ 0 ≤ Significand.round b.toInt)
    (h : IsDouble ((Significand.round a.toInt : ℚ) ^ Significand.round b.toInt)) :
    powerBy pow a b =
      fit (Double.truncate ((Significand.round a.toInt : ℚ) ^ Significand.round b.toInt)) := by
  rw [powerBy, hpow.exact (Significand.isDouble_round a) (Significand.isDouble_round b) hdefined h,
    ofDouble_finite]

/-- Negative powers of large bases are proper fractions, also after rounding. -/
theorem powerBy_of_fraction (ha : 2 ≤ |Significand.round a.toInt|)
    (hb : Significand.round b.toInt < 0) : powerBy pow a b = .ok 0 := by
  have hhalf := abs_zpow_le_half ha hb
  have hx : Significand.round a.toInt ≠ 0 := by
    intro h
    simp [h] at ha
  have hpower : (Significand.round a.toInt : ℚ) ^ Significand.round b.toInt ≠ 0 :=
    zpow_ne_zero _ (by exact_mod_cast hx)
  unfold powerBy
  have hclose := hpow.close (Significand.isDouble_round a) (Significand.isDouble_round b) hx
  generalize (Significand.round a.toInt : ℚ) ^ Significand.round b.toInt = power at *
  have hulp : Double.ulp power ≤ 2 ^ (-52 : ℤ) :=
    zpow_le_zpow_right₀ (by norm_num)
      (Double.lastPlace_le hpower (by norm_num) (by norm_num; linarith))
  rcases hclose with ⟨q, h, heq, hq⟩ | ⟨-, hlarge⟩
  · have hlt : |q| < 1 := by
      have := abs_sub_abs_le_abs_sub q power
      norm_num at hulp
      linarith
    rw [heq, ofDouble_finite, Double.truncate_of_abs_lt_one hlt]
    exact fit_eq_ok_iff.mpr rfl
  · have hone : (2 : ℚ) ^ 0 ≤ Double.largest := Double.two_pow_le_largest (by norm_num)
    rw [pow_zero] at hone
    linarith

end Accurate

theorem ofDouble_nearestPower_of_unit {x y : ℤ} (hx : |x| ≤ 1) (hy : y ≠ 0)
    (hdefined : ¬ (x = 0 ∧ y < 0)) :
    ofDouble (.nearestPower x y) = fit (if y % 2 = 0 then x * x else x) := by
  rw [Double.nearestPower_of_defined hdefined, zpow_of_abs_le_one hx hy,
    ofDouble_nearest_intCast, Significand.round_eq_self]
  exact (abs_unit_power_le hx y).trans (by norm_num)

theorem ofDouble_nearestPower_of_nonneg (x : ℤ) {y : ℤ} (hy : 0 ≤ y) :
    ofDouble (.nearestPower x y) = fit (Significand.round (x ^ y.toNat)) := by
  rw [Double.nearestPower_of_defined (by omega), zpow_of_nonneg x hy, ofDouble_nearest_intCast]

theorem fit_round_of_large {v : ℤ} (h : 2 ^ 64 ≤ |v|) :
    fit (Significand.round v) = .error .overflow := by
  have hround := Significand.le_abs_round v
  exact fit_of_large (by omega)

/-- The powers of the machine are the exact powers of the rounded operands, rounded to the nearest
double. -/
theorem power_eq_powerBy_nearestPower (a b : Int64) :
    power a b = powerBy Double.nearestPower a b := by
  have hfraction := powerBy_of_fraction Double.accurate_nearestPower (a := a) (b := b)
  unfold power PowerRoutine.truncatedPower? instPowerRoutine Significand.roundedPower?
  unfold powerBy at hfraction ⊢
  generalize Significand.round a.toInt = x at *
  generalize Significand.round b.toInt = y at *
  have hbase (hx : ¬ x.natAbs ≤ 1) : 2 ≤ |x| := by
    rw [le_abs]
    omega
  have hunit := ofDouble_nearestPower_of_unit (x := x) (y := y)
  dsimp only
  generalize (if y % 2 = 0 then x * x else x) = unit at *
  split_ifs with hy hpole hx hneg hlarge
  · rw [ofDouble_nearestPower_of_nonneg x (by omega), hy, Int.toNat_zero, pow_zero]
    decide
  · rw [Double.nearestPower_of_pole hpole, ofDouble]
  · exact (hunit (by rw [abs_le]; omega) hy hpole).symm
  · rw [hfraction (hbase hx) hneg]
    decide
  · rw [ofDouble_nearestPower_of_nonneg x (by omega)]
    exact (fit_round_of_large (two_pow_le_abs_pow (hbase hx) (by omega))).symm
  · rw [ofDouble_nearestPower_of_nonneg x (by omega)]
    rfl

/-! ### Small powers -/

/-- The base -1 with an odd exponent that has more than 53 bits. -/
def ForgetsParity (a b : ℤ) : Prop :=
  a = -1 ∧ b % 2 = 1 ∧ 2 ^ 53 < |b|

theorem round_zpow_of_unit {a b : ℤ} (ha : |a| ≤ 1) (hparity : ¬ ForgetsParity a b) :
    (Significand.round a : ℚ) ^ Significand.round b = (a : ℚ) ^ b := by
  rw [Significand.round_eq_self (by omega)]
  by_cases hb : b = 0
  · rw [(Significand.round_eq_zero_iff b).mpr hb, hb]
  · rw [zpow_of_abs_le_one ha hb,
      zpow_of_abs_le_one ha (mt (Significand.round_eq_zero_iff b).mp hb)]
    by_cases hlong : 2 ^ 53 < |b|
    · rw [Significand.round_emod_two hlong, if_pos rfl]
      split
      · rfl
      · rename_i hodd
        rw [abs_le] at ha
        have hbase : a = 0 ∨ a = 1 := by
          have : a ≠ -1 := fun h => hparity ⟨h, by omega, hlong⟩
          omega
        rcases hbase with rfl | rfl <;> rfl
    · rw [Significand.round_eq_self (by omega)]

theorem round_zpow_of_nonneg {a b : ℤ} (ha : 2 ≤ |a|) (hb : 0 ≤ b)
    (hsmall : |a ^ b.toNat| ≤ 2 ^ 53) :
    (Significand.round a : ℚ) ^ Significand.round b = (a : ℚ) ^ b := by
  rw [abs_pow] at hsmall
  have hexponent : (b.toNat : ℤ) < 2 ^ 53 :=
    calc (b.toNat : ℤ) < 2 ^ b.toNat := by exact_mod_cast Nat.lt_two_pow_self
      _ ≤ |a| ^ b.toNat := pow_le_pow_left₀ (by norm_num) ha _
      _ ≤ 2 ^ 53 := hsmall
  have hround : Significand.round b = b := by
    apply Significand.round_eq_self
    rw [abs_of_nonneg hb]
    omega
  rw [hround]
  by_cases hzero : b = 0
  · rw [hzero, zpow_zero, zpow_zero]
  · have hbase : |a| ≤ |a| ^ b.toNat := le_self_pow₀ (by omega) (by omega)
    rw [Significand.round_eq_self (hbase.trans hsmall)]

theorem exists_zpow_eq_intCast {a b : ℤ} (h : |a| ≤ 1 ∨ 0 ≤ b) :
    ∃ v : ℤ, (a : ℚ) ^ b = v := by
  by_cases hb : 0 ≤ b
  · exact ⟨_, zpow_of_nonneg a hb⟩
  · exact ⟨_, zpow_of_abs_le_one (h.resolve_right hb) (by omega)⟩

section Accurate

variable {pow : ℤ → ℤ → Double} (hpow : Double.AccuratePower pow) {a b : Int64}
include hpow

theorem powerBy_of_small (hdefined : ¬ (a.toInt = 0 ∧ b.toInt < 0))
    (hparity : ¬ ForgetsParity a.toInt b.toInt)
    (hsmall : |Double.truncate ((a.toInt : ℚ) ^ b.toInt)| ≤ 2 ^ 53) :
    powerBy pow a b = fit (Double.truncate ((a.toInt : ℚ) ^ b.toInt)) := by
  by_cases hwhole : |a.toInt| ≤ 1 ∨ 0 ≤ b.toInt
  · obtain ⟨v, hv⟩ := exists_zpow_eq_intCast hwhole
    rw [hv, Double.truncate_intCast] at hsmall
    have hround : (Significand.round a.toInt : ℚ) ^ Significand.round b.toInt =
        (a.toInt : ℚ) ^ b.toInt := by
      by_cases ha : |a.toInt| ≤ 1
      · exact round_zpow_of_unit ha hparity
      · have hb := hwhole.resolve_left ha
        apply round_zpow_of_nonneg (by omega) hb
        rw [zpow_of_nonneg _ hb, Int.cast_inj] at hv
        rwa [hv]
    rw [powerBy_of_isDouble hpow, hround]
    · rw [ne_eq, Significand.round_eq_zero_iff, ← not_lt, Significand.round_neg_iff]
      omega
    · rw [hround, hv]
      exact Double.isDouble_intCast hsmall
  · have hlarge : 2 ≤ |a.toInt| := by omega
    have hneg : b.toInt < 0 := by omega
    have hround := Significand.le_abs_round a.toInt
    rw [powerBy_of_fraction hpow (by omega) ((Significand.round_neg_iff _).mpr hneg),
      Double.truncate_of_abs_lt_one]
    · exact (fit_eq_ok_iff.mpr rfl).symm
    · linarith [abs_zpow_le_half hlarge hneg]

theorem powerBy_of_forgetsParity (h : ForgetsParity a.toInt b.toInt) :
    powerBy pow a b = .ok 1 := by
  obtain ⟨ha, -, hlong⟩ := h
  have hbase : Significand.round a.toInt = -1 := by
    rw [ha]
    decide
  have hpower : (Significand.round a.toInt : ℚ) ^ Significand.round b.toInt = (1 : ℤ) := by
    rw [hbase]
    simpa using (Int.even_iff.mpr (Significand.round_emod_two hlong)).neg_one_zpow (α := ℚ)
  rw [powerBy_of_isDouble hpow (.inl (by rw [hbase]; decide))]
  · rw [hpower, Double.truncate_intCast]
    decide
  · rw [hpower]
    exact Double.isDouble_intCast (by decide)

end Accurate

/-- With every accurate power routine, and with the powers of the machine, a power whose integer
part is at most `2 ^ 53` in magnitude is that integer part. The one exception is the base -1 with an
odd exponent beyond 53 bits: its last bit is lost and the power is 1. -/
theorem small_powers_exact {pow : ℤ → ℤ → Double} (hpow : Double.AccuratePower pow) (a b : Int64)
    (hdefined : ¬ (a.toInt = 0 ∧ b.toInt < 0))
    (hsmall : |Double.truncate ((a.toInt : ℚ) ^ b.toInt)| ≤ 2 ^ 53) :
    (¬ ForgetsParity a.toInt b.toInt →
      ∃ value : Int64, value.toInt = Double.truncate ((a.toInt : ℚ) ^ b.toInt) ∧
        powerBy pow a b = .ok value ∧ power a b = .ok value) ∧
    (ForgetsParity a.toInt b.toInt → powerBy pow a b = .ok 1 ∧ power a b = .ok 1) := by
  rw [power_eq_powerBy_nearestPower]
  constructor
  · intro hparity
    rw [powerBy_of_small hpow hdefined hparity hsmall,
      powerBy_of_small Double.accurate_nearestPower hdefined hparity hsmall]
    cases hfit : fit (Double.truncate ((a.toInt : ℚ) ^ b.toInt)) with
    | ok value => exact ⟨value, fit_eq_ok_iff.mp hfit, rfl, rfl⟩
    | error fault =>
      rw [abs_le] at hsmall
      have := (fit_eq_error_iff.mp hfit).2
      omega
  · intro hparity
    exact ⟨powerBy_of_forgetsParity hpow hparity,
      powerBy_of_forgetsParity Double.accurate_nearestPower hparity⟩

/-- The longest power of -3 within 53 bits. -/
theorem small_powers_exact_of_minus_three :
    Double.AccuratePower Double.nearestPower ∧
    Double.truncate (((-3 : Int64).toInt : ℚ) ^ (33 : Int64).toInt) = -5559060566555523 ∧
    powerBy Double.nearestPower (-3) 33 = .ok (-5559060566555523) ∧
    power (-3) 33 = .ok (-5559060566555523) := by
  have hpower : ((-3 : Int64).toInt : ℚ) ^ (33 : Int64).toInt = (-5559060566555523 : ℤ) := by
    have hbase : (-3 : Int64).toInt = -3 := by decide
    have hexponent : (33 : Int64).toInt = (33 : ℕ) := by decide
    rw [hbase, hexponent, zpow_natCast]
    norm_num
  have hwhole : Double.truncate (((-3 : Int64).toInt : ℚ) ^ (33 : Int64).toInt) =
      -5559060566555523 := by
    rw [hpower, Double.truncate_intCast]
  obtain ⟨value, hvalue, hby, hmachine⟩ :=
    (small_powers_exact Double.accurate_nearestPower (-3) 33 (by decide)
      (by rw [hwhole]; decide)).1 (by unfold ForgetsParity; decide)
  have heq : value = -5559060566555523 := by
    rw [← Int64.toInt_inj, hvalue, hwhole]
    decide
  subst heq
  exact ⟨Double.accurate_nearestPower, hwhole, hby, hmachine⟩

/-- The first odd exponent beyond 53 bits is taken for an even one: the exact power is -1. -/
theorem minus_one_forgets_parity :
    Double.AccuratePower Double.nearestPower ∧
    ¬ ((-1 : Int64).toInt = 0 ∧ (9007199254740993 : Int64).toInt < 0) ∧
    |Double.truncate (((-1 : Int64).toInt : ℚ) ^ (9007199254740993 : Int64).toInt)| ≤ 2 ^ 53 ∧
    Double.truncate (((-1 : Int64).toInt : ℚ) ^ (9007199254740993 : Int64).toInt) = -1 ∧
    powerBy Double.nearestPower (-1) 9007199254740993 = .ok 1 ∧
    power (-1) 9007199254740993 = .ok 1 := by
  have hpower : ((-1 : Int64).toInt : ℚ) ^ (9007199254740993 : Int64).toInt = (-1 : ℤ) := by
    have hbase : (-1 : Int64).toInt = -1 := by decide
    have hodd : Odd (9007199254740993 : Int64).toInt := by decide
    rw [hbase]
    simpa using hodd.neg_one_zpow (α := ℚ)
  have hmachine : power (-1) 9007199254740993 = .ok 1 := by decide
  refine ⟨Double.accurate_nearestPower, by decide, ?_, ?_, ?_, hmachine⟩
  · rw [hpower, Double.truncate_intCast]
    decide
  · rw [hpower, Double.truncate_intCast]
  · rw [← power_eq_powerBy_nearestPower, hmachine]

end Checked

end LineBasic
