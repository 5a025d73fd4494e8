import Mathlib

/-! # Decimal numbers as an unscaled integer and a scale

A decimal is a pair `(u, s)` of integers standing for `u · 10⁻ˢ`. The same number has many pairs.
This file collects the facts about the represented rational that arithmetic on the pairs needs:

* **`value_rescale`** — multiplying the unscaled part by a power of ten and raising the scale by as
  much does not move the number.
* **`value_add`**, **`value_le_value`** — at one scale, addition and order are those of the unscaled
  parts.
* **`digits`**, **`keepDigits`** — the number of decimal digits, and truncation towards zero to a
  given number of them, exact below the bound (`keepDigits_of_lt`) and never away from zero
  (`abs_value_keepDigits_le`). -/

namespace Decimal

/-- The rational that the pair `(u, s)` stands for. -/
def value (u s : ℤ) : ℚ := u * (10 : ℚ) ^ (-s)

@[simp] theorem value_zero_left (s : ℤ) : value 0 s = 0 := by simp [value]

@[simp] theorem value_zero_right (u : ℤ) : value u 0 = u := by simp [value]

theorem value_neg (u s : ℤ) : value (-u) s = -value u s := by simp [value]

theorem abs_value (u s : ℤ) : |value u s| = value |u| s := by
  have h : (0 : ℚ) < (10 : ℚ) ^ (-s) := by positivity
  rw [value, value, abs_mul, abs_of_pos h, Int.cast_abs]

theorem value_nonneg {u : ℤ} (s : ℤ) (hu : 0 ≤ u) : 0 ≤ value u s := by
  have h : (0 : ℚ) ≤ u := by exact_mod_cast hu
  unfold value
  positivity

/-- The sign of a decimal is the sign of its unscaled part. -/
theorem value_lt_zero_iff (u s : ℤ) : value u s < 0 ↔ u < 0 := by
  have h : (0 : ℚ) < (10 : ℚ) ^ (-s) := by positivity
  rw [value, mul_neg_iff]
  constructor
  · rintro (⟨-, h'⟩ | ⟨h', -⟩)
    · exact absurd h' (not_lt.mpr h.le)
    · exact_mod_cast h'
  · intro h'
    exact Or.inr ⟨by exact_mod_cast h', h⟩

theorem value_eq_zero_iff (u s : ℤ) : value u s = 0 ↔ u = 0 := by
  have h : (10 : ℚ) ^ (-s) ≠ 0 := by positivity
  rw [value, mul_eq_zero_iff_right h, Int.cast_eq_zero]

/-- **Rescaling.** Raising the scale by `d` and multiplying by `10^d` keeps the number. -/
theorem value_rescale (u s : ℤ) (d : ℕ) : value (u * 10 ^ d) (s + d) = value u s := by
  have h : (10 : ℚ) ≠ 0 := by norm_num
  rw [value, value]
  push_cast
  rw [neg_add, zpow_add₀ h, zpow_neg _ (d : ℤ), zpow_natCast]
  field_simp

/-- Rescaling to a scale `t` that is not below `s`. -/
theorem value_rescale_to (u : ℤ) {s t : ℤ} (h : s ≤ t) :
    value (u * 10 ^ (t - s).toNat) t = value u s := by
  have ht : t = s + ((t - s).toNat : ℤ) := by omega
  conv_lhs => rw [ht]
  rw [show (s + ((t - s).toNat : ℤ) - s).toNat = (t - s).toNat by omega]
  exact value_rescale u s _

theorem value_add (u v s : ℤ) : value (u + v) s = value u s + value v s := by
  simp [value, add_mul]

theorem value_sub (u v s : ℤ) : value (u - v) s = value u s - value v s := by
  simp [value, sub_mul]

/-- At one scale the order is that of the unscaled parts. -/
theorem value_le_value (u v s : ℤ) : value u s ≤ value v s ↔ u ≤ v := by
  have h : (0 : ℚ) < (10 : ℚ) ^ (-s) := by positivity
  rw [value, value, mul_le_mul_iff_left₀ h]
  exact_mod_cast Iff.rfl

theorem value_lt_value (u v s : ℤ) : value u s < value v s ↔ u < v := by
  rw [← not_le, ← not_le, value_le_value]

theorem value_inj {u v s : ℤ} : value u s = value v s ↔ u = v := by
  rw [le_antisymm_iff, le_antisymm_iff, value_le_value, value_le_value]

/-- A number below `10^m` in absolute value has an unscaled part below `10^(m + s)`. -/
theorem abs_lt_of_abs_value_lt {u s : ℤ} {m : ℕ} (hs : 0 ≤ m + s)
    (h : |value u s| < (10 : ℚ) ^ m) : |u| < 10 ^ (m + s).toNat := by
  rw [abs_value, value] at h
  have h10 : (0 : ℚ) < (10 : ℚ) ^ s := by positivity
  have h' : ((|u| : ℤ) : ℚ) < (10 : ℚ) ^ ((m : ℤ) + s) := by
    calc ((|u| : ℤ) : ℚ) = ((|u| : ℤ) : ℚ) * (10 : ℚ) ^ (-s) * (10 : ℚ) ^ s := by
          rw [mul_assoc, ← zpow_add₀ (by norm_num : (10 : ℚ) ≠ 0)]; simp
      _ < (10 : ℚ) ^ m * (10 : ℚ) ^ s := by gcongr
      _ = (10 : ℚ) ^ ((m : ℤ) + s) := by
          rw [zpow_add₀ (by norm_num : (10 : ℚ) ≠ 0), zpow_natCast]
  rw [show (m : ℤ) + s = ((m + s).toNat : ℤ) by omega, zpow_natCast] at h'
  exact_mod_cast h'

/-! ## Counting and dropping digits -/

/-- The number of decimal digits of `|u|`, one for zero. -/
def digits (u : ℤ) : ℕ := if u = 0 then 1 else Nat.log 10 u.natAbs + 1

theorem digits_le_iff (u : ℤ) {p : ℕ} (hp : 0 < p) : digits u ≤ p ↔ |u| < 10 ^ p := by
  unfold digits
  split_ifs with h
  · subst h
    simp only [abs_zero]
    exact ⟨fun _ => by positivity, fun _ => hp⟩
  · have hn : u.natAbs ≠ 0 := by omega
    rw [Nat.succ_le_iff, Nat.log_lt_iff_lt_pow (by norm_num) hn, Int.abs_eq_natAbs]
    exact_mod_cast Iff.rfl

/-- Keep the `p` leading digits of `(u, s)`, truncating towards zero; zero gets scale zero. -/
def keepDigits (p : ℕ) (u s : ℤ) : ℤ × ℤ :=
  let k := digits u - p
  let q := u.tdiv (10 ^ k)
  (q, if q = 0 then 0 else s - k)

/-- Below the digit bound nothing is lost. -/
theorem keepDigits_of_lt {p : ℕ} {u s : ℤ} (h : |u| < 10 ^ p) :
    keepDigits p u s = (u, if u = 0 then 0 else s) := by
  rcases Nat.eq_zero_or_pos p with rfl | hp
  · have hu : u = 0 := by simpa using h
    subst hu
    simp [keepDigits]
  · have hd := (digits_le_iff u hp).mpr h
    simp [keepDigits, Nat.sub_eq_zero_of_le hd]

theorem natAbs_lt_pow_digits (u : ℤ) : u.natAbs < 10 ^ digits u := by
  have h := (digits_le_iff u (p := digits u) (by unfold digits; split <;> omega)).mp le_rfl
  rw [Int.abs_eq_natAbs] at h
  exact_mod_cast h

/-- The kept part has at most `p` digits. -/
theorem abs_keepDigits_lt (p : ℕ) (u s : ℤ) : |(keepDigits p u s).1| < 10 ^ p := by
  have hd := natAbs_lt_pow_digits u
  simp only [keepDigits]
  rw [Int.abs_eq_natAbs, Int.natAbs_tdiv, Int.natAbs_pow]
  have key : u.natAbs / 10 ^ (digits u - p) < 10 ^ p := by
    rw [Nat.div_lt_iff_lt_mul (by positivity), ← pow_add]
    exact lt_of_lt_of_le hd (Nat.pow_le_pow_right (by norm_num) (by omega))
  exact_mod_cast key

/-- Truncation does not change the sign of the unscaled part to the other side of zero. -/
theorem keepDigits_nonneg (p : ℕ) {u : ℤ} (s : ℤ) (hu : 0 ≤ u) : 0 ≤ (keepDigits p u s).1 := by
  simp only [keepDigits]
  exact Int.tdiv_nonneg hu (by positivity)

theorem value_keepDigits (p : ℕ) (u s : ℤ) :
    value (keepDigits p u s).1 (keepDigits p u s).2 =
      value (u.tdiv (10 ^ (digits u - p))) (s - (digits u - p : ℕ)) := by
  simp only [keepDigits]
  split_ifs with h
  · simp [h]
  · rfl

/-- Dropping `k` digits moves towards zero by less than one unit of the last kept digit. -/
theorem value_tdiv_le {u : ℤ} (s : ℤ) (k : ℕ) (hu : 0 ≤ u) :
    value (u.tdiv (10 ^ k)) (s - k) ≤ value u s := by
  have h := value_rescale (u.tdiv (10 ^ k)) (s - k) k
  rw [sub_add_cancel] at h
  rw [← h, value_le_value, Int.tdiv_eq_ediv_of_nonneg hu]
  exact Int.ediv_mul_le u (by positivity)

/-- **Truncation never exceeds the number** when it is not negative. -/
theorem value_keepDigits_le (p : ℕ) {u : ℤ} (s : ℤ) (hu : 0 ≤ u) :
    value (keepDigits p u s).1 (keepDigits p u s).2 ≤ value u s := by
  rw [value_keepDigits]
  exact value_tdiv_le s _ hu

/-- **Truncation never falls below a number that already fits.** If `(v, t)` has at most `p` digits
and stands for no more than `(u, s)`, it stands for no more than `(u, s)` cut to `p` digits. -/
theorem le_value_keepDigits {p : ℕ} {u v s t : ℤ} (hv : 0 ≤ v) (hvp : v < 10 ^ p)
    (h : value v t ≤ value u s) :
    value v t ≤ value (keepDigits p u s).1 (keepDigits p u s).2 := by
  have hu : 0 ≤ u := by
    by_contra hneg
    have h1 := (value_lt_zero_iff u s).mpr (not_le.mp hneg)
    exact absurd (lt_of_le_of_lt h h1) (not_lt.mpr (value_nonneg t hv))
  rcases hv.eq_or_lt with rfl | hvpos
  · rw [value_zero_left]
    exact value_nonneg _ (keepDigits_nonneg p s hu)
  have hp : 0 < p := by
    by_contra h0
    rw [Nat.eq_zero_of_not_pos h0, pow_zero] at hvp
    omega
  rw [value_keepDigits]
  set k := digits u - p with hk
  by_cases hts : t ≤ s - k
  · -- `(v, t)` is a multiple of the last kept unit
    rw [← value_rescale_to v hts, value_le_value, Int.tdiv_eq_ediv_of_nonneg hu,
      Int.le_ediv_iff_mul_le (by positivity), ← value_le_value _ _ s]
    calc value (v * 10 ^ (s - k - t).toNat * 10 ^ k) s
        = value (v * 10 ^ (s - k - t).toNat) (s - k) := by
          have := value_rescale (v * 10 ^ (s - k - t).toNat) (s - k) k
          rwa [sub_add_cancel] at this
      _ = value v t := value_rescale_to v hts
      _ ≤ value u s := h
  · -- `(v, t)` is below the leading kept digit
    rcases Nat.eq_zero_or_pos k with hk0 | hkpos
    · rw [hk0]
      simpa using h
    · have hpd : p + k = digits u := by omega
      have hu0 : u ≠ 0 := by
        rintro rfl
        have hv0 := (value_le_value v 0 t).mp (by simpa using h)
        omega
      have hlog : digits u = Nat.log 10 u.natAbs + 1 := by simp [digits, hu0]
      have hlead : (10 : ℤ) ^ (p + k - 1) ≤ u := by
        have h1 := Nat.pow_log_le_self 10 (x := u.natAbs) (by omega)
        rw [hpd, hlog, Nat.add_sub_cancel]
        have h2 : ((10 ^ Nat.log 10 u.natAbs : ℕ) : ℤ) ≤ (u.natAbs : ℤ) := by exact_mod_cast h1
        rw [Int.natAbs_of_nonneg hu] at h2
        exact_mod_cast h2
      have hq : (10 : ℤ) ^ (p - 1) ≤ u.tdiv (10 ^ k) := by
        rw [Int.tdiv_eq_ediv_of_nonneg hu, Int.le_ediv_iff_mul_le (by positivity), ← pow_add]
        rwa [show p - 1 + k = p + k - 1 by omega]
      obtain ⟨d, hd⟩ : ∃ d : ℕ, t = s - k + (d + 1) := ⟨(t - (s - k) - 1).toNat, by omega⟩
      have hresc := value_rescale (u.tdiv (10 ^ k)) (s - k) (d + 1)
      rw [← hresc, hd, show (s - k : ℤ) + ((d + 1 : ℕ) : ℤ) = s - k + (d + 1) by push_cast; ring,
        value_le_value]
      calc v ≤ 10 ^ p := hvp.le
        _ = 10 ^ (p - 1) * 10 ^ 1 := by rw [← pow_add, Nat.sub_add_cancel hp]
        _ ≤ 10 ^ (p - 1) * 10 ^ (d + 1) := by gcongr <;> omega
        _ ≤ u.tdiv (10 ^ k) * 10 ^ (d + 1) := by gcongr

theorem digits_neg (u : ℤ) : digits (-u) = digits u := by simp [digits]

/-- **Truncation loses nothing of a number that fits** in `p` digits at some other scale. -/
theorem value_keepDigits_of_eq {p : ℕ} {u s v t : ℤ} (hv : |v| < 10 ^ p)
    (h : value u s = value v t) :
    value (keepDigits p u s).1 (keepDigits p u s).2 = value u s := by
  have hnonneg : ∀ u v : ℤ, 0 ≤ v → v < 10 ^ p → value u s = value v t →
      value (keepDigits p u s).1 (keepDigits p u s).2 = value u s := by
    intro u v hv hvp h
    have hu : 0 ≤ u := by
      by_contra hneg
      have h1 := (value_lt_zero_iff u s).mpr (not_le.mp hneg)
      exact absurd (h ▸ h1) (not_lt.mpr (value_nonneg t hv))
    apply le_antisymm (value_keepDigits_le p s hu)
    rw [h]
    exact le_value_keepDigits hv hvp h.ge
  rcases le_or_gt 0 v with h0 | h0
  · exact hnonneg u v h0 (lt_of_abs_lt hv) h
  · -- the mirror image of a number above zero
    have hmirror := hnonneg (-u) (-v) (by omega) (by rwa [abs_of_neg h0] at hv)
      (by rw [value_neg, value_neg, h])
    rw [value_keepDigits, digits_neg, Int.neg_tdiv, value_neg, value_neg, neg_inj] at hmirror
    rw [value_keepDigits]
    exact hmirror

/-- Dropping decimal places loses nothing of a number that has as few of them. -/
theorem value_tdiv_of_eq {u s v t : ℤ} {k : ℕ} (ht : t ≤ s - k) (h : value u s = value v t) :
    value (u.tdiv (10 ^ k)) (s - k) = value u s := by
  have hs : t ≤ s := by omega
  have hu : u = v * 10 ^ (s - k - t).toNat * 10 ^ k := by
    rw [← value_rescale_to v hs, value_inj] at h
    rw [h, mul_assoc, ← pow_add]
    congr 2
    omega
  rw [h, hu, Int.mul_tdiv_cancel _ (by positivity)]
  exact value_rescale_to v ht

/-- Dropping digits moves towards zero. -/
theorem abs_value_tdiv_le (u s : ℤ) (k : ℕ) : |value (u.tdiv (10 ^ k)) (s - k)| ≤ |value u s| := by
  rw [abs_value, abs_value]
  have habs : |u.tdiv (10 ^ k)| = |u|.tdiv (10 ^ k) := by
    rw [Int.abs_eq_natAbs, Int.natAbs_tdiv, Int.abs_eq_natAbs, Int.natAbs_pow]
    exact Int.ofNat_tdiv u.natAbs (10 ^ k)
  rw [habs]
  exact value_tdiv_le s _ (abs_nonneg u)

theorem abs_value_keepDigits_le (p : ℕ) (u s : ℤ) :
    |value (keepDigits p u s).1 (keepDigits p u s).2| ≤ |value u s| := by
  rw [value_keepDigits]
  exact abs_value_tdiv_le u s _

end Decimal
