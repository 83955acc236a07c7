import Mathlib
import LineBasic.Significand

/-!
# Double-precision numbers

A double has a significand of at most 53 bits and an exponent between -1074 and 971. The spacing of
the doubles around a number is its unit in the last place. Rounding a rational number to the nearest
double goes through the nearest integer at this scale; on the integers it is rounding to 53
significant bits.
-/
namespace LineBasic

/-- The values of the finite doubles. -/
def IsDouble (q : ℚ) : Prop :=
  ∃ m e : ℤ, |m| < 2 ^ 53 ∧ -1074 ≤ e ∧ e ≤ 971 ∧ q = m * 2 ^ e

/-- What a floating-point routine answers. Zeros and infinities of either sign are not told apart,
as truncation to an integer does not tell them apart. -/
inductive Double
  | finite (q : ℚ) (h : IsDouble q)
  | infinite
  | nan

namespace Double

def largest : ℚ := (2 ^ 53 - 1) * 2 ^ (971 : ℤ)

/-- The exponent of the last place of a nonzero number; below the normal range it stays at its
least. -/
def lastPlace (q : ℚ) : ℤ := max (Int.log 2 |q| - 52) (-1074)

def ulp (q : ℚ) : ℚ := 2 ^ lastPlace q

theorem ulp_pos (q : ℚ) : 0 < ulp q := by
  unfold ulp
  positivity

/-! ### Nearest integers -/

/-- No integer is nearer to `q` than `k`, and of two nearest ones `k` is the even one. -/
def IsNearest (k : ℤ) (q : ℚ) : Prop :=
  |q - k| < 1 / 2 ∨ |q - k| = 1 / 2 ∧ k % 2 = 0

theorem isNearest_intCast (k : ℤ) : IsNearest k (k : ℚ) := by
  left
  simp

theorem IsNearest.distance_le {k : ℤ} {q : ℚ} (h : IsNearest k q) : |q - k| ≤ 1 / 2 := by
  rcases h with h | ⟨h, _⟩ <;> linarith

theorem IsNearest.neg {k : ℤ} {q : ℚ} (h : IsNearest k q) : IsNearest (-k) (-q) := by
  have habs : |-q - (-k : ℤ)| = |q - k| := by
    rw [← abs_neg]
    push_cast
    ring_nf
  unfold IsNearest at h ⊢
  rw [habs]
  rcases h with h | ⟨h, hk⟩
  · exact .inl h
  · exact .inr ⟨h, by omega⟩

theorem IsNearest.unique {j k : ℤ} {q : ℚ} (hj : IsNearest j q) (hk : IsNearest k q) :
    j = k := by
  have htriangle : |(j : ℚ) - k| ≤ |q - j| + |q - k| := by
    rw [abs_sub_comm q j]
    exact abs_sub_le _ _ _
  by_cases heven : j % 2 = 0 ∧ k % 2 = 0
  · have hle : |(j : ℚ) - k| ≤ 1 := by linarith [hj.distance_le, hk.distance_le]
    have : |j - k| ≤ 1 := by exact_mod_cast hle
    rw [abs_le] at this
    omega
  · have hlt : |(j : ℚ) - k| < 1 := by
      rcases hj with hj | ⟨hj, hje⟩
      · linarith [hk.distance_le]
      · rcases hk with hk | ⟨hk, hke⟩
        · linarith
        · exact absurd ⟨hje, hke⟩ heven
    have : |j - k| < 1 := by exact_mod_cast hlt
    rw [abs_lt] at this
    omega

theorem isNearest_div_iff {k n u : ℤ} (h : 0 < u) :
    IsNearest k (n / u : ℚ) ↔ 2 * |n - k * u| < u ∨ 2 * |n - k * u| = u ∧ k % 2 = 0 := by
  have hu : (0 : ℚ) < u := by exact_mod_cast h
  have habs : |(n / u : ℚ) - k| = (|n - k * u| : ℤ) / u := by
    rw [div_sub' hu.ne', abs_div, abs_of_pos hu, mul_comm (u : ℚ)]
    push_cast
    rfl
  have hlt : |(n / u : ℚ) - k| < 1 / 2 ↔ 2 * |n - k * u| < u := by
    rw [habs, div_lt_iff₀ hu, ← @Int.cast_lt ℚ]
    push_cast
    constructor <;> intro <;> linarith
  have heq : |(n / u : ℚ) - k| = 1 / 2 ↔ 2 * |n - k * u| = u := by
    rw [habs, div_eq_iff hu.ne', ← @Int.cast_inj ℚ]
    push_cast
    constructor <;> intro <;> linarith
  rw [IsNearest, hlt, heq]

/-- The integer nearest to a number, halfway cases going to the even one. -/
def nearestInt (q : ℚ) : ℤ :=
  if q - ⌊q⌋ < 1 / 2 ∨ q - ⌊q⌋ = 1 / 2 ∧ ⌊q⌋ % 2 = 0 then ⌊q⌋ else ⌊q⌋ + 1

theorem isNearest_nearestInt (q : ℚ) : IsNearest (nearestInt q) q := by
  have hlow := Int.floor_le q
  have hhigh := Int.lt_floor_add_one q
  unfold nearestInt
  split
  · rename_i h
    unfold IsNearest
    rwa [abs_of_nonneg (by linarith)]
  · rename_i h
    push Not at h
    obtain ⟨hhalf, heven⟩ := h
    unfold IsNearest
    push_cast
    rw [abs_of_nonpos (by linarith)]
    rcases hhalf.lt_or_eq with hlt | heq
    · left
      linarith
    · right
      have := heven heq.symm
      exact ⟨by linarith, by omega⟩

theorem IsNearest.nearestInt_eq {k : ℤ} {q : ℚ} (h : IsNearest k q) : nearestInt q = k :=
  (isNearest_nearestInt q).unique h

theorem abs_nearestInt_le {q : ℚ} {n : ℤ} (h : |q| ≤ n) : |nearestInt q| ≤ n := by
  have hnear := (isNearest_nearestInt q).distance_le
  have htriangle : |(nearestInt q : ℚ)| ≤ |q - nearestInt q| + |q| := by
    have := abs_sub_abs_le_abs_sub (nearestInt q : ℚ) q
    rw [abs_sub_comm] at this
    linarith
  have hlt : (|nearestInt q| : ℚ) < n + 1 := by linarith
  have : |nearestInt q| < n + 1 := by exact_mod_cast hlt
  omega

/-! ### Nearest doubles -/

theorem two_zpow_sub (e f : ℤ) : (2 : ℚ) ^ (e - f) * 2 ^ f = 2 ^ e := by
  rw [← zpow_add₀ (by norm_num)]
  congr 1
  omega

/-- A multiple of a power of two by an integer, as a multiple of a lower power. -/
theorem exists_mul_two_zpow {e f : ℤ} (h : f ≤ e) (m : ℤ) :
    ∃ k : ℤ, (m : ℚ) * 2 ^ e = k * 2 ^ f := by
  refine ⟨m * 2 ^ (e - f).toNat, ?_⟩
  have hpow : ((2 ^ (e - f).toNat : ℤ) : ℚ) = 2 ^ (e - f) := by
    rw [Int.cast_pow, ← zpow_natCast, Int.toNat_of_nonneg (by omega)]
    norm_num
  rw [Int.cast_mul, hpow, mul_assoc, two_zpow_sub]

theorem lastPlace_le {q : ℚ} {e : ℤ} (hq : q ≠ 0) (he : -1074 ≤ e) (h : |q| < 2 ^ (53 + e)) :
    lastPlace q ≤ e := by
  have hlog : Int.log 2 |q| < 53 + e :=
    (Int.lt_zpow_iff_log_lt (by norm_num) (abs_pos.mpr hq)).mp (by exact_mod_cast h)
  unfold lastPlace
  omega

theorem abs_lt_mul_ulp (q : ℚ) : |q| < 2 ^ 53 * ulp q := by
  have hlt : |q| < 2 ^ (Int.log 2 |q| + 1) := Int.lt_zpow_succ_log_self (by norm_num) |q|
  have hle : (2 : ℚ) ^ (Int.log 2 |q| + 1) ≤ 2 ^ (53 + lastPlace q) :=
    zpow_le_zpow_right₀ (by norm_num) (by unfold lastPlace; omega)
  have heq : (2 : ℚ) ^ (53 + lastPlace q) = 2 ^ 53 * ulp q := zpow_add₀ (by norm_num) _ _
  linarith

theorem largest_lt : largest < 2 ^ (1024 : ℤ) := by
  have hpos : (0 : ℚ) < 2 ^ (971 : ℤ) := by positivity
  have heq : (2 : ℚ) ^ (1024 : ℤ) = 2 ^ 53 * 2 ^ (971 : ℤ) := zpow_add₀ (by norm_num) 53 971
  rw [heq, largest]
  generalize (2 : ℚ) ^ (971 : ℤ) = t at hpos
  linarith

theorem two_pow_le_largest {k : ℕ} (hk : k ≤ 1023) : (2 : ℚ) ^ k ≤ largest := by
  have hpos : (0 : ℚ) < 2 ^ (971 : ℤ) := by positivity
  have heq : (2 : ℚ) ^ (1023 : ℤ) = 2 ^ 52 * 2 ^ (971 : ℤ) := zpow_add₀ (by norm_num) 52 971
  calc (2 : ℚ) ^ k = 2 ^ (k : ℤ) := (zpow_natCast 2 k).symm
    _ ≤ 2 ^ (1023 : ℤ) := zpow_le_zpow_right₀ (by norm_num) (by omega)
    _ ≤ largest := by
      rw [heq, largest]
      generalize (2 : ℚ) ^ (971 : ℤ) = t at hpos
      linarith

theorem abs_intCast_le_largest {v : ℤ} {k : ℕ} (hk : k ≤ 1023) (h : |v| ≤ 2 ^ k) :
    |(v : ℚ)| ≤ largest := by
  have hq : |(v : ℚ)| ≤ 2 ^ k := by exact_mod_cast h
  exact hq.trans (two_pow_le_largest hk)

theorem abs_le_largest {q : ℚ} (h : IsDouble q) : |q| ≤ largest := by
  obtain ⟨m, e, hm, -, he, rfl⟩ := h
  have hm' : |(m : ℚ)| ≤ 2 ^ 53 - 1 := by
    have : |m| ≤ 2 ^ 53 - 1 := by omega
    exact_mod_cast this
  have hpow : (2 : ℚ) ^ e ≤ 2 ^ (971 : ℤ) := zpow_le_zpow_right₀ (by norm_num) he
  rw [abs_mul, abs_of_pos (by positivity : (0 : ℚ) < 2 ^ e), largest]
  exact mul_le_mul hm' hpow (by positivity) (by norm_num)

/-- A significand of 53 bits may round up to the next power of two, which is a double too unless it
leaves the range. -/
theorem isDouble_of_abs_le_largest {m e : ℤ} (hm : |m| ≤ 2 ^ 53) (he : -1074 ≤ e)
    (h : |(m : ℚ) * 2 ^ e| ≤ largest) : IsDouble (m * 2 ^ e) := by
  by_cases htop : 971 ≤ e
  · obtain ⟨k, hk⟩ := exists_mul_two_zpow htop m
    have hpos : (0 : ℚ) < 2 ^ (971 : ℤ) := by positivity
    rw [hk, abs_mul, abs_of_pos hpos, largest] at h
    have hkq : |(k : ℚ)| ≤ 2 ^ 53 - 1 := le_of_mul_le_mul_right h hpos
    have hkz : |k| ≤ 2 ^ 53 - 1 := by exact_mod_cast hkq
    exact ⟨k, 971, by omega, by omega, by omega, hk⟩
  · by_cases hlt : |m| < 2 ^ 53
    · exact ⟨m, e, hlt, he, by omega, rfl⟩
    · have habs : m = 2 ^ 53 ∨ m = -2 ^ 53 := (abs_eq (by norm_num)).mp (by omega)
      obtain ⟨k, rfl⟩ : ∃ k, m = k * 2 := ⟨m / 2, by omega⟩
      have hk : |k| < 2 ^ 53 := by
        rw [abs_lt]
        omega
      refine ⟨k, e + 1, hk, by omega, by omega, ?_⟩
      rw [zpow_add_one₀ (by norm_num)]
      push_cast
      ring

theorem isDouble_intCast {v : ℤ} (h : |v| ≤ 2 ^ 53) : IsDouble v := by
  have hle : |(v : ℚ)| ≤ largest := abs_intCast_le_largest (by norm_num) h
  simpa using isDouble_of_abs_le_largest (e := 0) h (by norm_num) (by simpa using hle)

def rounded (q : ℚ) : ℚ := nearestInt (q / ulp q) * ulp q

theorem abs_rounded_sub_le (q : ℚ) : |rounded q - q| ≤ 1 / 2 * ulp q := by
  have hulp := ulp_pos q
  have heq : rounded q - q = -(q / ulp q - nearestInt (q / ulp q)) * ulp q := by
    unfold rounded
    field_simp
    ring
  rw [heq, abs_mul, abs_neg, abs_of_pos hulp]
  exact mul_le_mul_of_nonneg_right (isNearest_nearestInt _).distance_le hulp.le

theorem abs_rounded_le {q : ℚ} {n : ℤ} (h : |q| ≤ n * ulp q) : |rounded q| ≤ n * ulp q := by
  have hulp := ulp_pos q
  have hscaled : |q / ulp q| ≤ n := by
    rwa [abs_div, abs_of_pos hulp, div_le_iff₀ hulp]
  have hn : (|nearestInt (q / ulp q)| : ℚ) ≤ n := by exact_mod_cast abs_nearestInt_le hscaled
  rw [rounded, abs_mul, abs_of_pos hulp]
  exact mul_le_mul_of_nonneg_right hn hulp.le

theorem rounded_eq_of_mul {q : ℚ} {k : ℤ} (h : q = k * ulp q) : rounded q = q := by
  have hscaled : q / ulp q = k := by
    rw [div_eq_iff (ulp_pos q).ne']
    exact h
  rw [rounded, hscaled, (isNearest_intCast k).nearestInt_eq, ← h]

theorem isDouble_rounded {q : ℚ} (h : |rounded q| ≤ largest) : IsDouble (rounded q) := by
  have hscaled : |q / ulp q| ≤ ((2 ^ 53 : ℤ) : ℚ) := by
    rw [abs_div, abs_of_pos (ulp_pos q), div_le_iff₀ (ulp_pos q)]
    exact_mod_cast (abs_lt_mul_ulp q).le
  exact isDouble_of_abs_le_largest (abs_nearestInt_le hscaled) (by unfold lastPlace; omega) h

theorem rounded_of_isDouble {q : ℚ} (h : IsDouble q) : rounded q = q := by
  by_cases hzero : q = 0
  · simpa [hzero] using rounded_eq_of_mul (k := 0) (q := 0) (by simp)
  · obtain ⟨m, e, hm, he, -, hq⟩ := h
    have hmq : |(m : ℚ)| < 2 ^ 53 := by exact_mod_cast hm
    have hlt : |q| < 2 ^ (53 + e) := by
      have hpos : (0 : ℚ) < 2 ^ e := by positivity
      rw [hq, abs_mul, abs_of_pos hpos, zpow_add₀ (by norm_num)]
      exact mul_lt_mul_of_pos_right hmq hpos
    obtain ⟨k, hk⟩ := exists_mul_two_zpow (lastPlace_le hzero he hlt) m
    exact rounded_eq_of_mul (hq.trans hk)

theorem abs_rounded_le_largest {q : ℚ} (h : |q| ≤ largest) : |rounded q| ≤ largest := by
  by_cases hzero : q = 0
  · have : rounded q = q := rounded_eq_of_mul (k := 0) (by simp [hzero])
    rwa [this]
  · have hplace : lastPlace q ≤ 971 := lastPlace_le hzero (by norm_num) (h.trans_lt largest_lt)
    obtain ⟨k, hk⟩ := exists_mul_two_zpow hplace (2 ^ 53 - 1)
    have hlargest : largest = k * ulp q := by
      rw [ulp, ← hk, largest]
      norm_num
    rw [hlargest] at h ⊢
    exact abs_rounded_le h

/-- The double nearest to a number, halfway cases going to the even significand. Numbers that round
beyond the largest double are infinite. -/
def nearest (q : ℚ) : Double :=
  if h : |rounded q| ≤ largest then .finite (rounded q) (isDouble_rounded h) else .infinite

theorem nearest_of_isDouble {q : ℚ} (h : IsDouble q) : nearest q = .finite q h := by
  have heq := rounded_of_isDouble h
  have hle : |rounded q| ≤ largest := by
    rw [heq]
    exact abs_le_largest h
  rw [nearest, dif_pos hle]
  simp only [finite.injEq]
  exact heq

/-- Above the subnormal numbers the significand has its full length. -/
theorem mul_ulp_le {q : ℚ} (h : 1 ≤ |q|) : 2 ^ 52 * ulp q ≤ |q| := by
  have hlog : 0 ≤ Int.log 2 |q| :=
    (Int.zpow_le_iff_le_log (by norm_num) (by linarith)).mp (by simpa using h)
  have hplace : 52 + lastPlace q = Int.log 2 |q| := by
    unfold lastPlace
    omega
  have heq : (2 : ℚ) ^ (52 + lastPlace q) = 2 ^ 52 * ulp q := zpow_add₀ (by norm_num) _ _
  have hle : ((2 : ℕ) : ℚ) ^ Int.log 2 |q| ≤ |q| :=
    Int.zpow_log_le_self (by norm_num) (by linarith)
  rw [← heq, hplace]
  exact_mod_cast hle

end Double

/-! ### Integers -/

namespace Significand

theorem exists_nearestMultiple {unit : ℕ} (h : 0 < unit) (n : ℕ) :
    ∃ k : ℕ, nearestMultiple unit n = k * unit ∧
      Double.IsNearest k (((n : ℤ) : ℚ) / ((unit : ℤ) : ℚ)) := by
  have hsplit : (unit : ℤ) * (n / unit : ℕ) + (n % unit : ℕ) = n := by
    exact_mod_cast Nat.div_add_mod n unit
  have hlt := Nat.mod_lt n h
  simp only [Double.isNearest_div_iff (u := unit) (by omega), nearestMultiple]
  generalize n / unit = quotient at *
  generalize n % unit = remainder at *
  split
  · refine ⟨quotient, rfl, ?_⟩
    have hdistance : (n : ℤ) - quotient * unit = remainder := by linarith
    rw [hdistance, abs_of_nonneg (by omega)]
    omega
  · refine ⟨quotient + 1, rfl, ?_⟩
    have hdistance : (n : ℤ) - (quotient + 1 : ℕ) * unit = -(unit - remainder : ℤ) := by
      push_cast
      linarith
    rw [hdistance, abs_neg, abs_of_nonneg (by omega)]
    omega

theorem exists_round (v : ℤ) :
    ∃ k : ℤ, round v = k * 2 ^ excessBits v.natAbs ∧
      Double.IsNearest k (v / 2 ^ excessBits v.natAbs : ℚ) := by
  obtain ⟨k, hk, hnear⟩ :=
    exists_nearestMultiple (Nat.two_pow_pos (excessBits v.natAbs)) v.natAbs
  have hround : (roundNat v.natAbs : ℤ) = k * 2 ^ excessBits v.natAbs := by
    exact_mod_cast hk
  push_cast at hnear
  unfold round
  split
  · rename_i hneg
    refine ⟨-k, by rw [hround]; ring, ?_⟩
    have hcast : (v : ℚ) = -|(v : ℚ)| := by
      rw [abs_of_neg (by exact_mod_cast hneg), neg_neg]
    rw [hcast, neg_div]
    exact hnear.neg
  · rename_i hnonneg
    refine ⟨k, hround, ?_⟩
    rwa [abs_of_nonneg (by exact_mod_cast not_lt.mp hnonneg)] at hnear

end Significand

namespace Double

/-- On the integers, rounding at the last place is rounding to 53 significant bits. -/
theorem rounded_intCast (v : ℤ) : rounded v = Significand.round v := by
  have hlog : Int.log 2 |(v : ℚ)| = v.natAbs.log2 := by
    have hcast : |(v : ℚ)| = (v.natAbs : ℕ) := by rw [Nat.cast_natAbs, Int.cast_abs]
    rw [hcast, Int.log_natCast, Nat.log2_eq_log_two]
  have hplace : lastPlace v = (v.natAbs.log2 : ℤ) - 52 := by
    unfold lastPlace
    omega
  by_cases hlong : 53 ≤ v.natAbs.log2
  · have hexcess : lastPlace v = Significand.excessBits v.natAbs := by
      unfold Significand.excessBits
      omega
    have hulp : ulp v = 2 ^ Significand.excessBits v.natAbs := by
      rw [ulp, hexcess, zpow_natCast]
    obtain ⟨k, hk, hnear⟩ := Significand.exists_round v
    rw [rounded, hulp, hnear.nearestInt_eq, hk]
    push_cast
    rfl
  · have hround : Significand.round v = v := by
      rw [Significand.round, Significand.roundNat_of_log2_lt (by omega)]
      split <;> omega
    obtain ⟨k, hk⟩ := exists_mul_two_zpow (e := 0) (f := lastPlace v) (by omega) v
    rw [hround]
    exact rounded_eq_of_mul (k := k) (by simpa [ulp] using hk)

end Double

namespace Significand

theorem abs_round_sub_le (v : ℤ) : 2 ^ 53 * |round v - v| ≤ |v| := by
  by_cases hzero : v = 0
  · subst hzero
    decide
  · have hone : 1 ≤ |(v : ℚ)| := by exact_mod_cast Int.one_le_abs hzero
    have hclose := Double.abs_rounded_sub_le (v : ℚ)
    rw [Double.rounded_intCast] at hclose
    have hle : (2 : ℚ) ^ 53 * |(round v : ℚ) - v| ≤ |(v : ℚ)| := by
      linarith [Double.mul_ulp_le hone]
    exact_mod_cast hle

theorem round_eq_self {v : ℤ} (h : |v| ≤ 2 ^ 53) : round v = v := by
  have := Double.rounded_of_isDouble (Double.isDouble_intCast h)
  rw [Double.rounded_intCast] at this
  exact_mod_cast this

/-- Beyond 53 bits the last bit is lost. -/
theorem round_emod_two {v : ℤ} (h : 2 ^ 53 < |v|) : round v % 2 = 0 := by
  obtain ⟨k, hk, -⟩ := exists_round v
  have hlog : 53 ≤ v.natAbs.log2 := by
    rw [Int.abs_eq_natAbs] at h
    rw [Nat.le_log2 (by omega)]
    omega
  obtain ⟨e, he⟩ : ∃ e, excessBits v.natAbs = e + 1 :=
    ⟨v.natAbs.log2 - 53, by unfold excessBits; omega⟩
  rw [hk, he, pow_succ, ← mul_assoc, Int.mul_emod_left]

theorem round_sign (v : ℤ) : (round v < 0 ↔ v < 0) ∧ (round v = 0 ↔ v = 0) := by
  have hclose := abs_round_sub_le v
  rcases abs_cases v with hv | hv <;> rcases abs_cases (round v - v) with hd | hd <;> omega

theorem round_neg_iff (v : ℤ) : round v < 0 ↔ v < 0 := (round_sign v).1

theorem round_eq_zero_iff (v : ℤ) : round v = 0 ↔ v = 0 := (round_sign v).2

theorem le_abs_round (v : ℤ) : (2 ^ 53 - 1) * |v| ≤ 2 ^ 53 * |round v| := by
  have hclose := abs_round_sub_le v
  have hdistance := abs_sub_abs_le_abs_sub v (round v)
  rw [abs_sub_comm] at hdistance
  omega

end Significand

end LineBasic
