import Minima.Base.Codec
import Minima.Lib.DecimalRounding

/-! # What `MiniNumber` arithmetic computes

Every operation forms an unscaled integer and a scale, and then applies the limits. In terms of the
numbers that stand behind them, the limits cut the exact result towards zero, first to 64 significant
digits and then to 44 decimal places, and throw where what is left is out of range.

* **`truncates_checked`** — the limits do just that, for every unscaled part and every scale.
* **`add_sub_mult_truncate`** — so addition, subtraction and multiplication are exact up to the cut,
  and `compareTo` is the order of the numbers.
* **`div_truncates_iff`** — division cuts the quotient once more, 66 places behind the scale of the
  dividend, and casts the scale of the divisor to an unsigned exponent. -/

namespace Minima

open Decimal

namespace MiniNumber

/-! ## The limits as a cut -/

/-- **What the limits leave of a number**: 64 significant digits, then 44 decimal places. -/
def truncated (q : ℚ) : ℚ := cutPlaces maxDecimalPlaces (cutDigits maxDigits q)

/-- **A call returns the exact result with its tail cut off**, and throws only where that is out of
range. -/
def Truncates (r : Result MiniNumber) (q : ℚ) : Prop :=
  (∃ c, r = .ok c ∧ c.toRat = truncated q ∧ |truncated q| ≤ maxValue) ∨
    (Throws r ∧ maxValue < |truncated q|)

/-- A cut to 44 places at the coarser of two places. -/
theorem truncated_eq (q : ℚ) :
    truncated q = cutPlaces (min maxDecimalPlaces (lastPlace maxDigits q)) q :=
  cutPlaces_cutPlaces _ _ q

theorem truncated_le {q : ℚ} (hq : 0 ≤ q) : truncated q ≤ q := by
  rw [truncated_eq]
  have h := abs_cutPlaces_le (min maxDecimalPlaces (lastPlace maxDigits q)) q
  rw [abs_of_nonneg hq] at h
  exact (le_abs_self _).trans h

/-- **Whole numbers of up to 63 digits** stay below what they are below. -/
theorem natCast_le_truncated {n : ℕ} (hn : n < 10 ^ 63) {q : ℚ} (h : (n : ℚ) ≤ q) :
    (n : ℚ) ≤ truncated q := by
  have hq : 0 ≤ q := (Nat.cast_nonneg n).trans h
  rw [truncated_eq]
  by_cases hsmall : Int.log 10 |q| ≤ 63
  · refine natCast_le_cutPlaces (le_min (by decide) ?_) h
    unfold lastPlace maxDigits
    omega
  · -- a number with so many digits keeps its first one
    have hpos : 0 < |q| := by
      rw [abs_pos]
      rintro rfl
      simp at hsmall
    have hfirst := Int.zpow_log_le_self (b := 10) (by norm_num) hpos
    rw [abs_of_nonneg hq] at hsmall hfirst
    have hkeep := le_cutPlaces (d := min maxDecimalPlaces (lastPlace maxDigits q)) (l := Int.log 10 q)
      (by unfold lastPlace maxDigits maxDecimalPlaces; rw [abs_of_nonneg hq]; omega)
      (by exact_mod_cast hfirst)
    refine le_trans ?_ hkeep
    calc (n : ℚ) ≤ 10 ^ (63 : ℤ) := by exact_mod_cast hn.le
      _ ≤ 10 ^ Int.log 10 q := zpow_le_zpow_right₀ (by norm_num) (by omega)

/-- **The limits take off little** of a number from one on. -/
theorem lt_truncated_add {q : ℚ} (h : 1 ≤ q) : q < truncated q + q * 10 ^ (-44 : ℤ) := by
  have hq : 0 < q := zero_lt_one.trans_le h
  have hcut := lt_cutPlaces_add (min maxDecimalPlaces (lastPlace maxDigits q)) hq.le
  rw [← truncated_eq] at hcut
  have hunit : (10 : ℚ) ^ (-min maxDecimalPlaces (lastPlace maxDigits q)) ≤ q * 10 ^ (-44 : ℤ) := by
    rcases min_choice maxDecimalPlaces (lastPlace maxDigits q) with hmin | hmin
    · rw [hmin]
      exact le_mul_of_one_le_left (by positivity) h
    · have hfirst := Int.zpow_log_le_self (b := 10) (by norm_num) hq
      have hsplit : (10 : ℚ) ^ (-lastPlace maxDigits q) = 10 ^ Int.log 10 q * 10 ^ (-63 : ℤ) := by
        rw [← zpow_add₀ (by norm_num), lastPlace, maxDigits, abs_of_pos hq]
        congr 1
        push_cast
        ring
      rw [hmin, hsplit]
      have hsmall : (10 : ℚ) ^ (-63 : ℤ) ≤ 10 ^ (-44 : ℤ) := zpow_le_zpow_right₀ (by norm_num) (by norm_num)
      have hfirst' : (10 : ℚ) ^ Int.log 10 q ≤ q := by exact_mod_cast hfirst
      exact mul_le_mul hfirst' hsmall (by positivity) hq.le
  linarith

theorem Truncates.toRat_eq {r : Result MiniNumber} {q : ℚ} {c : MiniNumber} (h : Truncates r q)
    (hr : r = .ok c) : c.toRat = truncated q := by
  rcases h with ⟨c', hc', hvalue, -⟩ | ⟨⟨what, hwhat⟩, -⟩
  · rw [hr, Except.ok.injEq] at hc'
    rw [hc', hvalue]
  · rw [hr] at hwhat
    cases hwhat

theorem toRat_applyMathContextDefault (x : MiniNumber) :
    x.applyMathContextDefault.toRat = cutDigits maxDigits x.toRat := by
  rw [applyMathContextDefault_eq]
  exact value_keepDigits_eq maxDigits x.unscaled x.scale

theorem toRat_enforceMaxDecimalPlaces (x : MiniNumber) :
    x.enforceMaxDecimalPlaces.toRat = cutPlaces maxDecimalPlaces x.toRat := by
  rw [toRat.eq_1 x, cutPlaces_value]
  unfold enforceMaxDecimalPlaces
  by_cases h : maxDecimalPlaces < x.scale
  · rw [if_pos h, if_neg (not_le.mpr h)]
    exact toRat_normalizeZero _
  · rw [if_neg h, if_pos (not_lt.mp h)]
    rfl

/-- `checkLimits` throws or returns. -/
theorem throws_checkLimits {x : MiniNumber} (h : ∀ y, checkLimits x ≠ .ok y) : Throws (checkLimits x) := by
  unfold checkLimits at h ⊢
  dsimp only at h ⊢
  split_ifs at h ⊢ with h1 h2
  · exact ⟨_, rfl⟩
  · exact ⟨_, rfl⟩
  · exact absurd rfl (h _)

/-- **The limits cut the number** that an unscaled part and a scale stand for. -/
theorem truncates_checked (u s : ℤ) :
    Truncates (checkLimits (applyMathContextDefault ⟨u, s⟩)) (value u s) := by
  have hvalue : (applyMathContextDefault ⟨u, s⟩).enforceMaxDecimalPlaces.toRat =
      truncated (value u s) := by
    rw [toRat_enforceMaxDecimalPlaces, toRat_applyMathContextDefault]
    rfl
  by_cases h : |truncated (value u s)| ≤ maxValue
  · left
    refine ⟨_, checkLimits_eq_ok.mpr ⟨rfl, ?_⟩, hvalue, h⟩
    rw [hvalue]
    exact h
  · right
    refine ⟨throws_checkLimits fun y hy => ?_, not_le.mp h⟩
    obtain ⟨rfl, hbound⟩ := checkLimits_eq_ok.mp hy
    rw [hvalue] at hbound
    exact h hbound

/-! ## Addition, subtraction, multiplication -/

theorem add_truncates (a b : MiniNumber) : Truncates (a.add b) (a.toRat + b.toRat) := by
  obtain ⟨ha, hb, -⟩ := alignScales_spec a b
  rw [← ha, ← hb, ← value_add]
  exact truncates_checked _ _

theorem sub_truncates (a b : MiniNumber) : Truncates (a.sub b) (a.toRat - b.toRat) := by
  obtain ⟨ha, hb, -⟩ := alignScales_spec a b
  rw [← ha, ← hb, ← value_sub]
  exact truncates_checked _ _

theorem mult_truncates (a b : MiniNumber) : Truncates (a.mult b) (a.toRat * b.toRat) := by
  have hvalue : a.toRat * b.toRat = value (a.unscaled * b.unscaled) (a.scale + b.scale) := by
    have h10 : (10 : ℚ) ≠ 0 := by norm_num
    rw [toRat, toRat, value, value, value, neg_add, zpow_add₀ h10]
    push_cast
    ring
  rw [hvalue]
  exact truncates_checked _ _

/-! ## Order -/

theorem compareTo_neg (a b : MiniNumber) : a.compareTo b < 0 ↔ a.toRat < b.toRat := by
  rw [← isLess_iff, isLess, decide_eq_true_eq]

theorem compareTo_eq_zero (a b : MiniNumber) : a.compareTo b = 0 ↔ a.toRat = b.toRat := by
  rw [← isEqual_iff, isEqual, beq_iff_eq]

theorem compareTo_le_zero (a b : MiniNumber) : a.compareTo b ≤ 0 ↔ a.toRat ≤ b.toRat := by
  rw [← isLessEqual_iff, isLessEqual, decide_eq_true_eq]

/-- **Addition, subtraction, multiplication and comparison follow the rationals**, for every pair of
representations. -/
theorem add_sub_mult_truncate (a b : MiniNumber) :
    Truncates (a.add b) (a.toRat + b.toRat) ∧ Truncates (a.sub b) (a.toRat - b.toRat) ∧
      Truncates (a.mult b) (a.toRat * b.toRat) ∧
      (a.compareTo b < 0 ↔ a.toRat < b.toRat) ∧ (a.compareTo b = 0 ↔ a.toRat = b.toRat) ∧
      (0 < a.compareTo b ↔ b.toRat < a.toRat) ∧
      -- a total order, up to equality of the numbers
      a.compareTo a = 0 ∧ (a.compareTo b ≤ 0 ∨ b.compareTo a ≤ 0) ∧
      (a.compareTo b ≤ 0 → b.compareTo a ≤ 0 → a.toRat = b.toRat) ∧
      ∀ c : MiniNumber, a.compareTo b ≤ 0 → b.compareTo c ≤ 0 → a.compareTo c ≤ 0 := by
  refine ⟨add_truncates a b, sub_truncates a b, mult_truncates a b, compareTo_neg a b,
    compareTo_eq_zero a b, compareTo_pos a b, (compareTo_eq_zero a a).mpr rfl, ?_, ?_, fun c => ?_⟩
  · rw [compareTo_le_zero, compareTo_le_zero]
    exact le_total _ _
  · rw [compareTo_le_zero, compareTo_le_zero]
    exact le_antisymm
  · rw [compareTo_le_zero, compareTo_le_zero, compareTo_le_zero]
    exact le_trans

/-! ## Ranges -/

theorem abs_truncated_le (q : ℚ) : |truncated q| ≤ |q| := by
  rw [truncated_eq]
  exact abs_cutPlaces_le _ _

theorem truncated_neg (q : ℚ) : truncated (-q) = -truncated q := by
  rw [truncated_eq, truncated_eq, lastPlace, abs_neg, cutPlaces_neg]
  rfl

theorem truncated_nonneg {q : ℚ} (hq : 0 ≤ q) : 0 ≤ truncated q := by
  rw [truncated_eq]
  exact cutPlaces_nonneg _ hq

theorem truncated_nonpos {q : ℚ} (hq : q ≤ 0) : truncated q ≤ 0 := by
  have h := truncated_nonneg (neg_nonneg.mpr hq)
  rw [truncated_neg] at h
  linarith

/-- Whole numbers of up to 64 digits are kept. -/
theorem truncated_natCast {n : ℕ} (hn : n < 10 ^ 64) : truncated n = n := by
  refine le_antisymm (truncated_le (Nat.cast_nonneg n)) ?_
  rw [truncated_eq]
  refine natCast_le_cutPlaces (le_min (by decide) ?_) le_rfl
  have hlog : Int.log 10 |(n : ℚ)| ≤ 63 := by
    rcases Nat.eq_zero_or_pos n with rfl | hpos
    · simp
    · rw [← Int.lt_add_one_iff, abs_of_nonneg (Nat.cast_nonneg n),
        ← Int.lt_zpow_iff_log_lt (b := 10) (by norm_num) (by exact_mod_cast hpos)]
      exact_mod_cast hn
  unfold lastPlace maxDigits
  omega

/-- **The limits keep the power of ten** that a number is above, down to the last decimal place. -/
theorem zpow_le_truncated {l : ℤ} {q : ℚ} (hl : -44 ≤ l) (h : (10 : ℚ) ^ l ≤ q) :
    (10 : ℚ) ^ l ≤ truncated q := by
  have hq : 0 < q := lt_of_lt_of_le (by positivity) h
  have hlog : l ≤ Int.log 10 q := by
    rw [← Int.zpow_le_iff_le_log (b := 10) (by norm_num) hq]
    exact_mod_cast h
  have hfirst : (10 : ℚ) ^ Int.log 10 q ≤ q := by
    exact_mod_cast Int.zpow_log_le_self (b := 10) (by norm_num) hq
  have hplace : -Int.log 10 q ≤ min maxDecimalPlaces (lastPlace maxDigits q) := by
    rw [lastPlace, abs_of_pos hq, maxDigits, maxDecimalPlaces, le_min_iff]
    constructor <;> omega
  rw [truncated_eq]
  exact (zpow_le_zpow_right₀ (by norm_num) hlog).trans (le_cutPlaces hplace hfirst)

/-- **What the limits add** to a negative number is less than a unit of its last digit. -/
theorem truncated_le_add {q : ℚ} (h : |q| ≤ 10 ^ 78) : truncated q ≤ q + 10 ^ 15 := by
  rcases le_total 0 q with hq | hq
  · exact (truncated_le hq).trans (by norm_num)
  · have hneg : 0 ≤ -q := neg_nonneg.mpr hq
    have hcut := lt_cutPlaces_add (min maxDecimalPlaces (lastPlace maxDigits (-q))) hneg
    rw [← truncated_eq, truncated_neg] at hcut
    have hunit : (10 : ℚ) ^ (-min maxDecimalPlaces (lastPlace maxDigits (-q))) ≤ 10 ^ (15 : ℤ) := by
      refine zpow_le_zpow_right₀ (by norm_num) ?_
      have hlog : Int.log 10 |q| ≤ 78 := by
        rcases eq_or_ne q 0 with rfl | h0
        · simp
        · rw [← Int.lt_add_one_iff, ← Int.lt_zpow_iff_log_lt (b := 10) (by norm_num) (abs_pos.mpr h0)]
          refine lt_of_le_of_lt h ?_
          norm_num
      rw [lastPlace, abs_neg, maxDigits, maxDecimalPlaces]
      omega
    rw [zpow_ofNat] at hunit
    linarith

theorem Truncates.exists_ok {r : Result MiniNumber} {q : ℚ} (h : Truncates r q) (hq : |q| ≤ maxValue) :
    ∃ c, r = .ok c ∧ c.toRat = truncated q := by
  rcases h with ⟨c, hc, hvalue, -⟩ | ⟨-, hbig⟩
  · exact ⟨c, hc, hvalue⟩
  · exact absurd ((abs_truncated_le q).trans hq) (not_le.mpr hbig)

/-- Numbers that differ do so in some of the 44 decimal places. -/
theorem Canonical.zpow_le_sub {a b : MiniNumber} (ha : a.Canonical) (hb : b.Canonical)
    (h : b.toRat < a.toRat) : (10 : ℚ) ^ (-44 : ℤ) ≤ a.toRat - b.toRat := by
  have hscale : ∀ x : MiniNumber, x.Canonical → ∃ u : ℤ, x.toRat = value u 44 := fun x hx =>
    ⟨_, (value_rescale_to x.unscaled hx.places).symm⟩
  obtain ⟨u, hu⟩ := hscale a ha
  obtain ⟨v, hv⟩ := hscale b hb
  rw [hu, hv] at h ⊢
  rw [value_lt_value] at h
  rw [← value_sub]
  have hone : value 1 44 ≤ value (u - v) 44 := (value_le_value _ _ _).mpr (by omega)
  simpa [value] using hone

/-- A number below `10 ^ k` has no more than `k` zeros appended. -/
theorem neg_scale_le_of_lt {x : MiniNumber} {k : ℕ} (hpos : 0 < x.toRat) (h : x.toRat < 10 ^ k) :
    -x.scale < k := by
  have hu : 1 ≤ x.unscaled := by
    rw [toRat, ← value_zero_left x.scale, value_lt_value] at hpos
    exact hpos
  by_contra hle
  have hone : (1 : ℚ) ≤ x.unscaled := by exact_mod_cast hu
  have hpow : (10 : ℚ) ^ (k : ℤ) ≤ 10 ^ (-x.scale) := zpow_le_zpow_right₀ (by norm_num) (by omega)
  rw [zpow_natCast] at hpow
  have hvalue : (10 : ℚ) ^ k ≤ x.toRat := by
    calc (10 : ℚ) ^ k ≤ 1 * 10 ^ (-x.scale) := by rwa [one_mul]
      _ ≤ x.unscaled * 10 ^ (-x.scale) := by gcongr
  exact absurd h (not_lt.mpr hvalue)

/-- `multBigInteger` is the floor of the product. -/
theorem multBigInteger_eq_floor {a : MiniNumber} (h : 0 ≤ a.toRat) (n : ℕ) :
    a.multBigInteger n = ⌊a.toRat * n⌋ := by
  have hu : 0 ≤ a.unscaled := not_lt.mp (mt (value_lt_zero_iff _ _).mpr (not_lt.mpr h))
  have hprod : a.toRat * n = value (n * a.unscaled) a.scale := by
    rw [toRat, value, value]
    push_cast
    ring
  have hbig := @getAsBigInteger_eq_floor ⟨n * a.unscaled, a.scale⟩ (by
    rw [toRat]
    exact value_nonneg _ (by positivity))
  rw [hprod]
  exact hbig

/-! ## Division -/

theorem mult_canonical {a b c : MiniNumber} (h : a.mult b = .ok c) : c.Canonical := canonical_of_checked h

theorem div_canonical {a b c : MiniNumber} (h : a.div b = .ok c) : c.Canonical := by
  unfold div at h
  split_ifs at h
  · exact absurd h (throwException_ne_ok _ _)
  · exact canonical_of_checked h

/-- A number other than zero has at most 77 zeros appended. -/
theorem Canonical.neg_scale_le {x : MiniNumber} (h : x.Canonical) (h0 : x.unscaled ≠ 0) :
    -x.scale ≤ 77 := by
  by_contra hlt
  have hone : (1 : ℚ) ≤ (|x.unscaled| : ℤ) := by exact_mod_cast Int.one_le_abs h0
  have hpow : (10 : ℚ) ^ (78 : ℤ) ≤ 10 ^ (-x.scale) := zpow_le_zpow_right₀ (by norm_num) (by omega)
  have hbound := h.bound
  rw [toRat, abs_value, value] at hbound
  have hprod : (1 : ℚ) * 10 ^ (78 : ℤ) ≤ (|x.unscaled| : ℤ) * 10 ^ (-x.scale) := by gcongr
  have hmax : ((maxValue : ℤ) : ℚ) < 1 * 10 ^ (78 : ℤ) := by norm_num [maxValue]
  exact absurd (hprod.trans hbound) (not_le.mpr hmax)

/-- The loop of `pow10` turns a few hundred times, unless the exponent wraps. -/
theorem divTurns_le_iff {b : MiniNumber} (hb : b.Canonical) : divTurns b ≤ 300 ↔ -66 ≤ b.scale := by
  have hlow := hb.scale_bounds.1
  have hhigh := hb.places
  unfold divTurns maxDigits
  unfold maxDecimalPlaces at hhigh
  omega

/-- **A division cuts the quotient** 66 places behind the scale of the dividend, before the limits. -/
theorem div_truncates (a : MiniNumber) {b : MiniNumber} (h0 : b.unscaled ≠ 0) (hb : -66 ≤ b.scale)
    (hb' : b.scale < 2 ^ 31) :
    Truncates (a.div b) (cutPlaces (a.scale + 66) (a.toRat / b.toRat)) := by
  have h10 : (10 : ℚ) ≠ 0 := by norm_num
  have hturns : (divTurns b : ℤ) = b.scale + 66 := by
    unfold divTurns maxDigits
    omega
  have hquot : a.toRat / b.toRat * 10 ^ (a.scale + 66) =
      ((a.unscaled * 10 ^ divTurns b : ℤ) : ℚ) / b.unscaled := by
    have hu : (b.unscaled : ℚ) ≠ 0 := by exact_mod_cast h0
    push_cast
    rw [toRat, toRat, value, value, ← zpow_natCast, hturns, zpow_neg, zpow_neg, zpow_add₀ h10,
      zpow_add₀ h10]
    field_simp
  have hcut : cutPlaces (a.scale + 66) (a.toRat / b.toRat) =
      value ((a.unscaled * pow10 (divTurns b)).tdiv b.unscaled) (a.scale + 66) := by
    rw [cutPlaces, hquot, truncate_div, pow10_eq]
  rw [hcut, div, if_neg h0]
  exact truncates_checked _ _

/-- **A quotient in range**: what a division leaves is not above it, and not below a power of ten that it
is above. -/
theorem exists_div_eq_ok {a b : MiniNumber} (ha : 0 ≤ a.toRat) (hb : 0 < b.toRat) (hbig : b.toRat < 10 ^ 60)
    (hplaces : b.scale ≤ maxDecimalPlaces) (hq : a.toRat / b.toRat ≤ maxValue) :
    ∃ c, a.div b = .ok c ∧ 0 ≤ c.toRat ∧ c.toRat ≤ a.toRat / b.toRat ∧
      ∀ l : ℤ, -44 ≤ l → -(a.scale + 66) ≤ l → (10 : ℚ) ^ l ≤ a.toRat / b.toRat → (10 : ℚ) ^ l ≤ c.toRat := by
  have hb0 : b.unscaled ≠ 0 := by
    intro h0
    rw [toRat, h0, value_zero_left] at hb
    exact lt_irrefl _ hb
  have hscale := neg_scale_le_of_lt hb hbig
  have hquot : 0 ≤ a.toRat / b.toRat := div_nonneg ha hb.le
  have hcut := abs_cutPlaces_le (a.scale + 66) (a.toRat / b.toRat)
  have hcut0 := cutPlaces_nonneg (a.scale + 66) hquot
  rw [abs_of_nonneg hcut0, abs_of_nonneg hquot] at hcut
  have hdiv := div_truncates a hb0 (by omega) (hplaces.trans_lt (by decide))
  obtain ⟨c, hc, hvalue⟩ := hdiv.exists_ok (by rw [abs_of_nonneg hcut0]; exact hcut.trans hq)
  refine ⟨c, hc, ?_, ?_, fun l hl hla hle => ?_⟩
  · rw [hvalue]
    exact truncated_nonneg hcut0
  · rw [hvalue]
    exact (truncated_le hcut0).trans hcut
  · rw [hvalue]
    exact zpow_le_truncated hl (le_cutPlaces (by omega) hle)

/-- The cut of a division and the limits are one cut. -/
theorem truncated_cutPlaces (d : ℤ) (q : ℚ) :
    truncated (cutPlaces d q) =
      cutPlaces (min (min maxDecimalPlaces (lastPlace maxDigits q)) d) q := by
  rw [truncated, cutDigits_cutPlaces, cutPlaces_cutPlaces, min_assoc]

/-- **A division by a small whole number**, from the quotient one on: it is below the exact quotient,
above every whole number that this is above, and off by little. -/
theorem div_ofInt_bounds {a c : MiniNumber} {n : ℕ} (hn : 0 < n) (hn' : n ≤ 10 ^ 6) (ha : (n : ℚ) ≤ a.toRat)
    (h : a.div (ofInt n) = .ok c) :
    c.toRat ≤ a.toRat / n ∧ a.toRat / n < c.toRat + a.toRat / n * 10 ^ (-40 : ℤ) ∧
      ∀ N : ℕ, N < 10 ^ 60 → (N : ℚ) ≤ a.toRat / n → (N : ℚ) ≤ c.toRat := by
  have hn0 : (0 : ℚ) < n := by exact_mod_cast hn
  have hnle : (n : ℚ) ≤ 10 ^ 6 := by exact_mod_cast hn'
  have hc := (div_truncates a (b := ofInt n) (by simp [ofInt]; omega) (by simp [ofInt]) (by simp [ofInt])).toRat_eq h
  rw [toRat_ofInt, Int.cast_natCast] at hc
  have hpos : 0 < a.toRat := hn0.trans_le ha
  set q := a.toRat / n with hq
  have hq1 : 1 ≤ q := by rw [hq, le_div_iff₀ hn0, one_mul]; exact ha
  have haq : a.toRat = q * n := by rw [hq, div_mul_cancel₀ _ hn0.ne']
  -- a unit behind the cut of the division is small beside the dividend
  have hunit : (10 : ℚ) ^ (-(a.scale + 66)) ≤ q * 10 ^ (-60 : ℤ) := by
    have hlead : (1 : ℚ) ≤ a.unscaled := by
      have : 0 < a.unscaled := by
        rw [← value_lt_value _ _ a.scale, value_zero_left]
        exact hpos
      exact_mod_cast this
    have hscale : (10 : ℚ) ^ (-a.scale) ≤ q * 10 ^ (6 : ℤ) := by
      calc (10 : ℚ) ^ (-a.scale) = 1 * 10 ^ (-a.scale) := (one_mul _).symm
        _ ≤ a.unscaled * 10 ^ (-a.scale) := by gcongr
        _ = q * n := haq
        _ ≤ q * 10 ^ (6 : ℤ) := by
            gcongr
            exact_mod_cast hnle
    calc (10 : ℚ) ^ (-(a.scale + 66)) = 10 ^ (-a.scale) * 10 ^ (-66 : ℤ) := by
          rw [← zpow_add₀ (by norm_num)]
          congr 1
          ring
      _ ≤ q * 10 ^ (6 : ℤ) * 10 ^ (-66 : ℤ) := by gcongr
      _ = q * 10 ^ (-60 : ℤ) := by rw [mul_assoc, ← zpow_add₀ (by norm_num)]; norm_num
  have hcut := lt_cutPlaces_add (a.scale + 66) (zero_le_one.trans hq1)
  have hcutle : cutPlaces (a.scale + 66) q ≤ q := by
    have := abs_cutPlaces_le (a.scale + 66) q
    rw [abs_of_nonneg (zero_le_one.trans hq1)] at this
    exact (le_abs_self _).trans this
  set p := cutPlaces (a.scale + 66) q with hp
  set unit : ℚ := 10 ^ (-(a.scale + 66)) with hunitdef
  have hsmall : (10 : ℚ) ^ (-60 : ℤ) = 1 / 10 ^ 60 := by norm_num
  rw [hsmall] at hunit
  have hwhole : ∀ N : ℕ, N < 10 ^ 60 → (N : ℚ) ≤ q → (N : ℚ) ≤ p := by
    intro N hN hNq
    by_cases hplace : 0 ≤ a.scale + 66
    · exact natCast_le_cutPlaces hplace hNq
    · have hten : (10 : ℚ) ^ (1 : ℤ) ≤ unit := zpow_le_zpow_right₀ (by norm_num) (by omega)
      have hNle : (N : ℚ) ≤ 10 ^ 60 := by exact_mod_cast hN.le
      rw [zpow_one] at hten
      linarith
  have hp1 : 1 ≤ p := by
    have := hwhole 1 (by norm_num)
    rw [Nat.cast_one] at this
    exact this hq1
  have hlow := lt_truncated_add hp1
  have hhigh := truncated_le (zero_le_one.trans hp1)
  rw [← hc] at hlow hhigh
  refine ⟨hhigh.trans hcutle, ?_, fun N hN hNq => ?_⟩
  · have h44 : (10 : ℚ) ^ (-44 : ℤ) = 1 / 10 ^ 44 := by norm_num
    have h40 : (10 : ℚ) ^ (-40 : ℤ) = 1 / 10 ^ 40 := by norm_num
    rw [h44] at hlow
    rw [h40]
    linarith
  · rw [hc]
    exact natCast_le_truncated (hN.trans (by norm_num)) (hwhole N hN hNq)

/-- **Division is truncated exact division exactly when** the scale of the divisor is at least `-66`,
and every digit of the exact quotient that should be kept but lies more than 66 places behind the scale
of the dividend is zero. -/
theorem div_truncates_iff {a b : MiniNumber} (ha : a.Canonical) (hb : b.Canonical)
    (h0 : b.unscaled ≠ 0) :
    Truncates (a.div b) (a.toRat / b.toRat) ∧ divTurns b ≤ 300 ↔
      -66 ≤ b.scale ∧ ∀ j, a.scale + 66 < j →
        j ≤ min maxDecimalPlaces (lastPlace maxDigits (a.toRat / b.toRat)) →
          digitAt (a.toRat / b.toRat) j = 0 := by
  rw [divTurns_le_iff hb, and_comm]
  refine and_congr_right fun hscale => ?_
  have hdiv := div_truncates a h0 hscale (by
    have := hb.scale_bounds.2
    omega)
  set q := a.toRat / b.toRat with hq
  set place := min maxDecimalPlaces (lastPlace maxDigits q) with hplace
  rcases le_or_gt place (a.scale + 66) with hle | hlt
  · -- the cut of the division is behind both others
    have hsame : truncated (cutPlaces (a.scale + 66) q) = truncated q := by
      rw [truncated_cutPlaces, truncated_eq, min_eq_left hle]
    rw [Truncates, hsame] at hdiv
    refine iff_of_true hdiv fun j hj hj' => ?_
    omega
  · have hcut : truncated (cutPlaces (a.scale + 66) q) = cutPlaces (a.scale + 66) q := by
      rw [truncated_cutPlaces, min_eq_right hlt.le]
    rw [Truncates, hcut] at hdiv
    rw [← cutPlaces_eq_iff q hlt.le, Truncates, truncated_eq, ← hplace]
    constructor
    · intro h
      rcases hdiv with ⟨c, hc, hvalue, -⟩ | ⟨-, hbig⟩
      · rcases h with ⟨c', hc', hvalue', -⟩ | ⟨⟨what, hthrow⟩, -⟩
        · rw [hc, Except.ok.injEq] at hc'
          rw [← hvalue, ← hvalue', hc']
        · rw [hc] at hthrow
          cases hthrow
      · -- out of range the quotient has so many digits that nothing is cut too early
        exfalso
        have hlarge : (10 : ℚ) ^ (77 : ℤ) ≤ |q| := by
          refine le_trans ?_ (hbig.le.trans (abs_cutPlaces_le _ q))
          norm_num [maxValue]
        have hlog : 77 ≤ Int.log 10 |q| := by
          apply (Int.zpow_le_iff_le_log (by norm_num) (lt_of_lt_of_le (by positivity) hlarge)).mp
          exact_mod_cast hlarge
        have hne : a.unscaled ≠ 0 := by
          intro hzero
          rw [hq, toRat, hzero, value_zero_left, zero_div, abs_zero] at hlarge
          norm_num at hlarge
        have hsmall := ha.neg_scale_le hne
        have hlast : place ≤ lastPlace maxDigits q := min_le_right _ _
        unfold lastPlace maxDigits at hlast
        omega
    · intro heq
      rwa [heq] at hdiv

/-- `1E70`. -/
def largeDividend : MiniNumber := ⟨1, -70⟩

/-- Three with 63 zeros, all of them digits. -/
def longDivisor : MiniNumber := ⟨3 * 10 ^ 63, 0⟩

/-- `1E67`. -/
def largeDivisor : MiniNumber := ⟨1, -67⟩

/-- One divided by three is cut to 44 places. -/
theorem div_truncates_iff_third : Truncates (one.div (ofInt 3)) (one.toRat / (ofInt 3).toRat) ∧
    divTurns (ofInt 3) ≤ 300 := by
  have hthree : (ofInt 3).Canonical := canonical_ofNat (n := 3) (by norm_num)
  apply (div_truncates_iff canonical_one hthree (by decide)).mpr
  refine ⟨by decide, fun j hj hj' => ?_⟩
  have hplaces := hj'.trans (min_le_left _ _)
  simp only [one, ofInt, maxDecimalPlaces] at hj hplaces
  omega

/-- The quotient of `1E70` and three with 63 zeros is returned as `3330000`, where `3333333.33…` is
exact; and the division by `1E67` turns its loop four billion times. -/
theorem not_div_truncates :
    ¬ ∀ a b : MiniNumber, a.Canonical → b.Canonical → b.unscaled ≠ 0 →
      Truncates (a.div b) (a.toRat / b.toRat) ∧ divTurns b ≤ 300 := by
  intro h
  have hdiv : largeDividend.div longDivisor = .ok ⟨333, -4⟩ := by decide +kernel
  have hexact : truncated (largeDividend.toRat / longDivisor.toRat) ≠ toRat ⟨333, -4⟩ := by
    decide +kernel
  rcases (h largeDividend longDivisor (by decide +kernel) (by decide +kernel) (by decide)).1 with
    ⟨c, hc, hvalue, -⟩ | ⟨⟨what, hthrow⟩, -⟩
  · rw [hdiv, Except.ok.injEq] at hc
    rw [← hc] at hvalue
    exact hexact hvalue.symm
  · rw [hdiv] at hthrow
    cases hthrow

end MiniNumber

end Minima
