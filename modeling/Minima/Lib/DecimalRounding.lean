import Minima.Lib.Decimal

/-! # Cutting rationals to decimal places and significant digits

Decimal arithmetic returns an exact rational with its tail cut off. This file says what is cut, in
terms of the rational alone, and relates it to the cuts on unscaled integers of `Decimal`.

* **`cutPlaces d q`** — `q` towards zero to `d` decimal places; a negative `d` cuts before the point.
* **`cutDigits p q`** — `q` towards zero to `p` significant digits.
* **`cutPlaces_value`**, **`value_keepDigits_eq`** — on a decimal these are divisions of its unscaled
  part.
* **`cutDigits_cutPlaces`** — two cuts one after the other are the coarser of the two.
* **`cutPlaces_eq_iff`** — two cuts agree exactly when the digits between them are zero. -/

namespace Decimal

/-! ## The integer part -/

/-- The integer part of a rational, towards zero. -/
def truncate (q : ℚ) : ℤ := if 0 ≤ q then ⌊q⌋ else -⌊-q⌋

theorem truncate_of_nonneg {q : ℚ} (h : 0 ≤ q) : truncate q = ⌊q⌋ := if_pos h

@[simp] theorem truncate_zero : truncate 0 = 0 := by simp [truncate]

theorem truncate_neg (q : ℚ) : truncate (-q) = -truncate q := by
  rcases lt_trichotomy q 0 with h | rfl | h
  · have hpos : 0 ≤ -q := by linarith
    rw [truncate, truncate, if_pos hpos, if_neg (not_le.mpr h), neg_neg]
  · simp
  · have hneg : ¬ 0 ≤ -q := by
      rw [not_le]
      linarith
    rw [truncate, truncate, if_neg hneg, if_pos h.le, neg_neg]

/-- **Division of integers towards zero** is the integer part of the quotient. -/
theorem truncate_div (u n : ℤ) : truncate (u / n) = u.tdiv n := by
  -- for natural numbers this is the floor
  have hnat : ∀ a b : ℕ, truncate (((a : ℤ) : ℚ) / ((b : ℤ) : ℚ)) = (a : ℤ).tdiv b := by
    intro a b
    rw [Int.cast_natCast, Int.cast_natCast, truncate_of_nonneg (by positivity),
      ← Int.natCast_floor_eq_floor (by positivity), Nat.floor_div_eq_div]
    exact Int.ofNat_tdiv a b
  obtain ⟨a, rfl | rfl⟩ := Int.eq_nat_or_neg u <;> obtain ⟨b, rfl | rfl⟩ := Int.eq_nat_or_neg n
  · exact hnat a b
  · rw [Int.cast_neg, div_neg, truncate_neg, Int.tdiv_neg, neg_inj]
    exact hnat a b
  · rw [Int.cast_neg, neg_div, truncate_neg, Int.neg_tdiv, neg_inj]
    exact hnat a b
  · rw [Int.cast_neg, Int.cast_neg, neg_div_neg_eq, Int.neg_tdiv, Int.tdiv_neg, neg_neg]
    exact hnat a b

@[simp] theorem truncate_intCast (u : ℤ) : truncate u = u := by
  have h := truncate_div u 1
  rwa [Int.cast_one, div_one, Int.tdiv_one] at h

/-- Dividing the integer part by `n` is taking the integer part of the quotient. -/
theorem truncate_tdiv (q : ℚ) (n : ℕ) : (truncate q).tdiv n = truncate (q / n) := by
  have hpos : ∀ r : ℚ, 0 ≤ r → (truncate r).tdiv n = truncate (r / n) := by
    intro r hr
    rw [truncate_of_nonneg hr, truncate_of_nonneg (by positivity),
      Int.tdiv_eq_ediv_of_nonneg (Int.floor_nonneg.mpr hr)]
    exact (Int.floor_div_natCast r n).symm
  rcases le_total 0 q with h | h
  · exact hpos q h
  · have hmirror := hpos (-q) (by linarith)
    rw [truncate_neg, Int.neg_tdiv, neg_div, truncate_neg, neg_inj] at hmirror
    exact hmirror

/-! ## Decimal places -/

/-- **`q` cut at decimal place `d`**, towards zero. -/
def cutPlaces (d : ℤ) (q : ℚ) : ℚ := value (truncate (q * 10 ^ d)) d

@[simp] theorem cutPlaces_zero (d : ℤ) : cutPlaces d 0 = 0 := by simp [cutPlaces]

theorem cutPlaces_neg (d : ℤ) (q : ℚ) : cutPlaces d (-q) = -cutPlaces d q := by
  rw [cutPlaces, neg_mul, truncate_neg, value_neg]
  rfl

/-- **Cutting a decimal** divides its unscaled part, if it has that many places at all. -/
theorem cutPlaces_value (u s d : ℤ) :
    cutPlaces d (value u s) = if s ≤ d then value u s else value (u.tdiv (10 ^ (s - d).toNat)) d := by
  have h10 : (10 : ℚ) ≠ 0 := by norm_num
  have hshift : value u s * 10 ^ d = u * (10 : ℚ) ^ (d - s) := by
    rw [value, mul_assoc, ← zpow_add₀ h10]
    congr 2
    ring
  rw [cutPlaces, hshift]
  split_ifs with h
  · obtain ⟨k, hk⟩ := Int.eq_ofNat_of_zero_le (sub_nonneg.mpr h)
    have hint : (u : ℚ) * 10 ^ (d - s) = ((u * 10 ^ k : ℤ) : ℚ) := by
      rw [hk, zpow_natCast]
      push_cast
      rfl
    rw [hint, truncate_intCast, show d = s + k by omega]
    exact value_rescale u s k
  · obtain ⟨k, hk⟩ := Int.eq_ofNat_of_zero_le (sub_nonneg.mpr (not_le.mp h).le)
    have hdiv : (u : ℚ) * 10 ^ (d - s) = (u : ℚ) / ((10 ^ k : ℤ) : ℚ) := by
      rw [show d - s = -(k : ℤ) by omega, zpow_neg, zpow_natCast, div_eq_mul_inv]
      push_cast
      rfl
    rw [hdiv, truncate_div, hk, Int.toNat_natCast]

/-- A decimal with at most `d` places is not cut. -/
theorem cutPlaces_of_le {s d : ℤ} (u : ℤ) (h : s ≤ d) : cutPlaces d (value u s) = value u s := by
  rw [cutPlaces_value, if_pos h]

/-- **Two cuts are one**, at the coarser place. -/
theorem cutPlaces_cutPlaces (d e : ℤ) (q : ℚ) :
    cutPlaces d (cutPlaces e q) = cutPlaces (min d e) q := by
  rcases le_or_gt e d with h | h
  · rw [min_eq_right h]
    exact cutPlaces_of_le _ h
  · have hcut := cutPlaces_value (truncate (q * 10 ^ e)) e d
    rw [if_neg (not_le.mpr h)] at hcut
    rw [min_eq_left h.le, cutPlaces.eq_1 e q, hcut]
    obtain ⟨k, hk⟩ := Int.eq_ofNat_of_zero_le (sub_nonneg.mpr h.le)
    have hdiv := truncate_tdiv (q * 10 ^ e) (10 ^ k)
    have hquot : q * 10 ^ e / ((10 ^ k : ℕ) : ℚ) = q * 10 ^ d := by
      have h10 : (10 : ℚ) ≠ 0 := by norm_num
      rw [show e = d + k by omega, zpow_add₀ h10, zpow_natCast]
      push_cast
      field_simp
    rw [hquot] at hdiv
    push_cast at hdiv
    rw [hk, Int.toNat_natCast, hdiv]
    rfl

theorem cutPlaces_nonneg (d : ℤ) {q : ℚ} (h : 0 ≤ q) : 0 ≤ cutPlaces d q := by
  have hpos : 0 ≤ q * 10 ^ d := by positivity
  rw [cutPlaces, truncate_of_nonneg hpos]
  exact value_nonneg d (Int.floor_nonneg.mpr hpos)

theorem abs_cutPlaces (d : ℤ) (q : ℚ) : |cutPlaces d q| = cutPlaces d |q| := by
  rcases le_total 0 q with h | h
  · rw [abs_of_nonneg h, abs_of_nonneg (cutPlaces_nonneg d h)]
  · have hneg := cutPlaces_nonneg d (show 0 ≤ -q by linarith)
    rw [abs_of_nonpos h]
    rw [cutPlaces_neg] at hneg ⊢
    exact abs_of_nonpos (by linarith)

/-- A cut never moves away from zero. -/
theorem abs_cutPlaces_le (d : ℤ) (q : ℚ) : |cutPlaces d q| ≤ |q| := by
  have hpow : (0 : ℚ) < 10 ^ d := by positivity
  rw [abs_cutPlaces, cutPlaces, truncate_of_nonneg (by positivity), value, zpow_neg,
    ← div_eq_mul_inv, div_le_iff₀ hpow]
  exact Int.floor_le _

/-- A power of ten is kept by every cut that reaches its place. -/
theorem le_cutPlaces {d l : ℤ} {q : ℚ} (hl : -l ≤ d) (h : (10 : ℚ) ^ l ≤ q) :
    (10 : ℚ) ^ l ≤ cutPlaces d q := by
  have hpow : (0 : ℚ) < 10 ^ d := by positivity
  have h10 : (10 : ℚ) ≠ 0 := by norm_num
  have hq : 0 ≤ q := le_trans (by positivity) h
  obtain ⟨k, hk⟩ := Int.eq_ofNat_of_zero_le (show 0 ≤ l + d by omega)
  rw [cutPlaces, truncate_of_nonneg (by positivity), value, zpow_neg, ← div_eq_mul_inv,
    le_div_iff₀ hpow, ← zpow_add₀ h10, hk, zpow_natCast]
  have hfloor : ((10 ^ k : ℕ) : ℤ) ≤ ⌊q * 10 ^ d⌋ := by
    rw [Int.le_floor]
    push_cast
    rw [← zpow_natCast, ← hk, zpow_add₀ h10]
    gcongr
  exact_mod_cast hfloor

/-- A cut keeps the order. -/
theorem cutPlaces_le_cutPlaces (d : ℤ) {q r : ℚ} (hq : 0 ≤ q) (h : q ≤ r) :
    cutPlaces d q ≤ cutPlaces d r := by
  have hpow : (0 : ℚ) < 10 ^ d := by positivity
  have hr : 0 ≤ r := hq.trans h
  rw [cutPlaces, cutPlaces, value_le_value, truncate_of_nonneg (by positivity),
    truncate_of_nonneg (by positivity)]
  gcongr

/-- A whole number below `q` is kept by a cut behind the point. -/
theorem natCast_le_cutPlaces {d : ℤ} (hd : 0 ≤ d) {n : ℕ} {q : ℚ} (h : (n : ℚ) ≤ q) :
    (n : ℚ) ≤ cutPlaces d q := by
  have hkeep := cutPlaces_of_le (n : ℤ) hd
  rw [value_zero_right, Int.cast_natCast] at hkeep
  rw [← hkeep]
  exact cutPlaces_le_cutPlaces d (Nat.cast_nonneg n) h

/-- A cut takes off less than a unit of its last place. -/
theorem lt_cutPlaces_add (d : ℤ) {q : ℚ} (hq : 0 ≤ q) : q < cutPlaces d q + 10 ^ (-d) := by
  have hpow : (0 : ℚ) < 10 ^ d := by positivity
  have hfloor := Int.lt_floor_add_one (q * 10 ^ d)
  rw [cutPlaces, truncate_of_nonneg (by positivity), value, ← add_one_mul, zpow_neg, ← div_eq_mul_inv,
    lt_div_iff₀ hpow]
  exact hfloor

/-! ## Significant digits -/

/-- The decimal place of the last of `p` significant digits of `q`. -/
def lastPlace (p : ℕ) (q : ℚ) : ℤ := p - 1 - Int.log 10 |q|

/-- **`q` cut to `p` significant digits**, towards zero. -/
def cutDigits (p : ℕ) (q : ℚ) : ℚ := cutPlaces (lastPlace p q) q

/-- The leading digit of a decimal is found by counting the digits of its unscaled part. -/
theorem log_abs_value {u : ℤ} (s : ℤ) (hu : u ≠ 0) : Int.log 10 |value u s| = digits u - 1 - s := by
  have h10 : (10 : ℚ) ≠ 0 := by norm_num
  have hs : (0 : ℚ) < 10 ^ (-s) := by positivity
  have hnat : u.natAbs ≠ 0 := Int.natAbs_ne_zero.mpr hu
  have habs : |value u s| = (u.natAbs : ℚ) * 10 ^ (-s) := by
    rw [abs_value, value, Int.abs_eq_natAbs]
    rfl
  have hpos : (0 : ℚ) < (u.natAbs : ℚ) * 10 ^ (-s) := by
    have hone : (0 : ℚ) < u.natAbs := by exact_mod_cast Nat.pos_of_ne_zero hnat
    positivity
  have hdigits : digits u = Nat.log 10 u.natAbs + 1 := by simp [digits, hu]
  rw [habs, hdigits]
  push_cast
  apply le_antisymm
  · have hlt : (u.natAbs : ℚ) * 10 ^ (-s) < (10 : ℕ) ^ ((Nat.log 10 u.natAbs : ℤ) + 1 - s) := by
      have hself : (u.natAbs : ℚ) < 10 ^ (Nat.log 10 u.natAbs + 1) := by
        exact_mod_cast Nat.lt_pow_succ_log_self (by norm_num) _
      rw [Nat.cast_ofNat, sub_eq_add_neg, zpow_add₀ h10]
      gcongr
      exact_mod_cast hself
    have hlog := (Int.lt_zpow_iff_log_lt (by norm_num) hpos).mp hlt
    omega
  · have hle : ((10 : ℕ) : ℚ) ^ ((Nat.log 10 u.natAbs : ℤ) - s) ≤ (u.natAbs : ℚ) * 10 ^ (-s) := by
      have hself : (10 : ℚ) ^ Nat.log 10 u.natAbs ≤ u.natAbs := by
        exact_mod_cast Nat.pow_log_le_self 10 hnat
      rw [Nat.cast_ofNat, sub_eq_add_neg, zpow_add₀ h10]
      gcongr
      exact_mod_cast hself
    have hlog := (Int.zpow_le_iff_le_log (by norm_num) hpos).mp hle
    omega

/-- **Keeping the leading digits of a decimal** is cutting its value. -/
theorem value_keepDigits_eq (p : ℕ) (u s : ℤ) :
    value (keepDigits p u s).1 (keepDigits p u s).2 = cutDigits p (value u s) := by
  rw [value_keepDigits, cutDigits]
  by_cases hu : u = 0
  · simp [hu]
  · rw [cutPlaces_value, lastPlace, log_abs_value s hu]
    split_ifs with h
    · rw [show digits u - p = 0 by omega]
      simp
    · rw [show (s - (p - 1 - (digits u - 1 - s)) : ℤ).toNat = digits u - p by omega]
      congr 1
      omega

/-- A cut that leaves something keeps the leading digit. -/
theorem log_abs_cutPlaces {d : ℤ} {q : ℚ} (h : cutPlaces d q ≠ 0) :
    Int.log 10 |cutPlaces d q| = Int.log 10 |q| := by
  have hq : 0 < |q| := by
    rw [abs_pos]
    rintro rfl
    exact h (cutPlaces_zero d)
  have hcut : 0 < |cutPlaces d q| := abs_pos.mpr h
  have hself := Int.zpow_log_le_self (b := 10) (by norm_num) hq
  have hlt := Int.lt_zpow_succ_log_self (b := 10) (by norm_num) |q|
  have hplace : -Int.log 10 |q| ≤ d := by
    -- otherwise the whole of `q` lies behind the cut
    by_contra hbehind
    apply h
    rw [← abs_eq_zero, abs_cutPlaces, cutPlaces, truncate_of_nonneg (by positivity)]
    have hone : |q| * 10 ^ d < 1 := by
      have h10 : (10 : ℚ) ≠ 0 := by norm_num
      calc |q| * 10 ^ d < (10 : ℚ) ^ (Int.log 10 |q| + 1) * 10 ^ d := by
            gcongr
            exact_mod_cast hlt
        _ = (10 : ℚ) ^ (Int.log 10 |q| + 1 + d) := (zpow_add₀ h10 _ _).symm
        _ ≤ (10 : ℚ) ^ (0 : ℤ) := zpow_le_zpow_right₀ (by norm_num) (by omega)
        _ = 1 := zpow_zero _
    rw [Int.floor_eq_zero_iff.mpr ⟨by positivity, hone⟩, value_zero_left]
  apply le_antisymm
  · exact Int.log_mono_right hcut (abs_cutPlaces_le d q)
  · rw [← Int.zpow_le_iff_le_log (by norm_num) hcut, abs_cutPlaces]
    exact_mod_cast le_cutPlaces hplace (by exact_mod_cast hself)

/-- A cut moves with the point. -/
theorem cutPlaces_mul_zpow (d k : ℤ) (q : ℚ) :
    cutPlaces (d - k) (q * 10 ^ k) = cutPlaces d q * 10 ^ k := by
  have h10 : (10 : ℚ) ≠ 0 := by norm_num
  have hshift : q * 10 ^ k * 10 ^ (d - k) = q * (10 : ℚ) ^ d := by
    rw [mul_assoc, ← zpow_add₀ h10]
    congr 2
    ring
  rw [cutPlaces, hshift, cutPlaces, value, value, mul_assoc, ← zpow_add₀ h10]
  congr 2
  ring

/-- **The digits that are cut off** do not depend on where the point is. -/
theorem cutDigits_mul_zpow (p : ℕ) (k : ℤ) (q : ℚ) :
    cutDigits p (q * 10 ^ k) = cutDigits p q * 10 ^ k := by
  by_cases hq : q = 0
  · rw [hq, zero_mul, cutDigits, cutPlaces_zero, zero_mul]
  · have h10 : (10 : ℚ) ≠ 0 := by norm_num
    have hpos : 0 < |q| := abs_pos.mpr hq
    have habs : |q * 10 ^ k| = |q| * (10 : ℚ) ^ k := by
      rw [abs_mul, abs_of_pos (by positivity : (0 : ℚ) < 10 ^ k)]
    have hscaled : 0 < |q| * (10 : ℚ) ^ k := by positivity
    have hself := Int.zpow_log_le_self (b := 10) (by norm_num) hpos
    have hlt := Int.lt_zpow_succ_log_self (b := 10) (by norm_num) |q|
    have hlog : Int.log 10 (|q| * (10 : ℚ) ^ k) = Int.log 10 |q| + k := by
      apply le_antisymm
      · have hup : |q| * (10 : ℚ) ^ k < ((10 : ℕ) : ℚ) ^ (Int.log 10 |q| + 1 + k) := by
          rw [Nat.cast_ofNat, zpow_add₀ h10]
          gcongr
          exact_mod_cast hlt
        have := (Int.lt_zpow_iff_log_lt (by norm_num) hscaled).mp hup
        omega
      · refine (Int.zpow_le_iff_le_log (by norm_num) hscaled).mp ?_
        rw [Nat.cast_ofNat, zpow_add₀ h10]
        gcongr
        exact_mod_cast hself
    have hplace : lastPlace p (q * 10 ^ k) = lastPlace p q - k := by
      rw [lastPlace, lastPlace, habs, hlog]
      ring
    rw [cutDigits, hplace, cutPlaces_mul_zpow]
    rfl

/-- **Cutting places and then digits** cuts at the coarser of the two. -/
theorem cutDigits_cutPlaces (p : ℕ) (d : ℤ) (q : ℚ) :
    cutDigits p (cutPlaces d q) = cutPlaces (min (lastPlace p q) d) q := by
  by_cases h : cutPlaces d q = 0
  · rw [← cutPlaces_cutPlaces, h, cutPlaces_zero, cutDigits, cutPlaces_zero]
  · rw [cutDigits, lastPlace, log_abs_cutPlaces h, cutPlaces_cutPlaces]
    rfl

/-! ## The digits between two cuts -/

/-- The digit of `q` at decimal place `j`. -/
def digitAt (q : ℚ) (j : ℤ) : ℕ := ⌊|q| * 10 ^ j⌋₊ % 10

/-- Cutting one place earlier loses one digit. -/
theorem cutPlaces_sub_one_eq_iff (q : ℚ) (j : ℤ) :
    cutPlaces (j - 1) q = cutPlaces j q ↔ digitAt q j = 0 := by
  have hpos : ∀ r : ℚ, 0 ≤ r →
      (cutPlaces (j - 1) r = cutPlaces j r ↔ ⌊r * 10 ^ j⌋₊ % 10 = 0) := by
    intro r hr
    have hscaled : 0 ≤ r * 10 ^ j := by positivity
    have hcut : cutPlaces j r = value (⌊r * 10 ^ j⌋₊ : ℤ) j := by
      rw [cutPlaces, truncate_of_nonneg hscaled, Int.natCast_floor_eq_floor hscaled]
    have hten := cutPlaces_cutPlaces (j - 1) j r
    rw [min_eq_left (by omega), hcut, cutPlaces_value, if_neg (by omega)] at hten
    rw [← hten, hcut, show (j - (j - 1)).toNat = 1 by omega, pow_one,
      Int.tdiv_eq_ediv_of_nonneg (by positivity)]
    have hrescale := value_rescale ((⌊r * 10 ^ j⌋₊ : ℤ) / 10) (j - 1) 1
    rw [← hrescale, show j - 1 + ((1 : ℕ) : ℤ) = j by push_cast; ring, value_inj]
    omega
  rcases le_total 0 q with h | h
  · rw [digitAt, abs_of_nonneg h]
    exact hpos q h
  · have hmirror := hpos (-q) (by linarith)
    rw [cutPlaces_neg, cutPlaces_neg, neg_inj] at hmirror
    rw [digitAt, abs_of_nonpos h]
    exact hmirror

/-- **Two cuts agree exactly when every digit between them is zero.** -/
theorem cutPlaces_eq_iff {d e : ℤ} (q : ℚ) (h : e ≤ d) :
    cutPlaces e q = cutPlaces d q ↔ ∀ j, e < j → j ≤ d → digitAt q j = 0 := by
  constructor
  · intro heq j hej hjd
    -- all cuts in between agree too
    have hbetween : ∀ i, e ≤ i → i ≤ d → cutPlaces i q = cutPlaces e q := by
      intro i hei hid
      calc cutPlaces i q = cutPlaces i (cutPlaces d q) := by rw [cutPlaces_cutPlaces, min_eq_left hid]
        _ = cutPlaces i (cutPlaces e q) := by rw [heq]
        _ = cutPlaces e q := by rw [cutPlaces_cutPlaces, min_eq_right hei]
    rw [← cutPlaces_sub_one_eq_iff, hbetween (j - 1) (by omega) (by omega),
      hbetween j (by omega) hjd]
  · intro hzero
    induction d, h using Int.leInduction with
    | base => rfl
    | succ d hed ih =>
      rw [ih fun j hej hjd => hzero j hej (by omega)]
      have hlast := (cutPlaces_sub_one_eq_iff q (d + 1)).mpr (hzero (d + 1) (by omega) le_rfl)
      rwa [add_sub_cancel_right] at hlast

end Decimal
