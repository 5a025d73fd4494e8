import Minima.Objects.TokenScale

/-! # Sums of amounts, in Minima and in the units of a token

The smallest unit of Minima is `10 ^ (-44)`; of a token it is larger by as many places as the scale says.
Sums of amounts in whole units are exact below `10 ^ 20` Minima, and a sum that comes out below that was
never above it.

* **`InUnits`** — the amounts in whole units.
* **`foldlM_add_eq`** — a loop that adds up amounts.
* **`div_le`** — a part of an amount. -/

namespace Minima.MiniNumber

open Decimal

/-- A whole number of units, `s` places larger than the smallest ones. -/
def InUnits (s : ℕ) (q : ℚ) : Prop := ∃ k : ℤ, q = value k maxDecimalPlaces * 10 ^ s

namespace InUnits

variable {s : ℕ} {p q : ℚ}

theorem zero : InUnits s 0 := ⟨0, by rw [value_zero_left, zero_mul]⟩

theorem add (hp : InUnits s p) (hq : InUnits s q) : InUnits s (p + q) := by
  obtain ⟨k, rfl⟩ := hp
  obtain ⟨l, rfl⟩ := hq
  exact ⟨k + l, by rw [value_add, add_mul]⟩

theorem sub (hp : InUnits s p) (hq : InUnits s q) : InUnits s (p - q) := by
  obtain ⟨k, rfl⟩ := hp
  obtain ⟨l, rfl⟩ := hq
  exact ⟨k - l, by rw [value_sub, sub_mul]⟩

/-- Every number inside the limits is a whole number of the smallest units. -/
theorem of_canonical {x : MiniNumber} (hx : x.Canonical) : InUnits 0 x.toRat :=
  ⟨_, by rw [pow_zero, mul_one]; exact (value_rescale_to x.unscaled hx.places).symm⟩

theorem mul_pow (h : InUnits 0 q) (s : ℕ) : InUnits s (q * 10 ^ s) := by
  obtain ⟨k, rfl⟩ := h
  exact ⟨k, by rw [pow_zero, mul_one]⟩

theorem div_pow (h : InUnits s q) : InUnits 0 (q / 10 ^ s) := by
  obtain ⟨k, rfl⟩ := h
  exact ⟨k, by rw [mul_div_assoc, div_self (pow_ne_zero _ (by norm_num)), pow_zero]⟩

/-- The limits leave whole units. -/
theorem truncated (h : InUnits s q) : InUnits s (MiniNumber.truncated q) := by
  obtain ⟨k, rfl⟩ := h
  rw [Token.truncated_mul_pow rfl]
  obtain ⟨v, hv⟩ := Token.exists_cutPlaces_value (lastPlace maxDigits (value k maxDecimalPlaces)) k maxDecimalPlaces
  obtain ⟨w, hw⟩ := Token.exists_cutPlaces_value maxDecimalPlaces v maxDecimalPlaces
  refine ⟨w, ?_⟩
  rw [MiniNumber.truncated, cutDigits, hv, hw]

/-- An amount below `10 ^ 20` Minima stands for a number. -/
theorem representable (h : InUnits 0 q) (hlt : |q| < 10 ^ 20) : Representable q := by
  obtain ⟨k, rfl⟩ := h
  rw [pow_zero, mul_one] at hlt ⊢
  by_cases hk : k = 0
  · exact ⟨.zero, canonical_zero, by rw [hk, value_zero_left, toRat_zero]⟩
  · have hdigits := abs_lt_of_abs_value_lt (m := 20) (by decide) hlt
    refine ⟨⟨k, maxDecimalPlaces⟩, ⟨hdigits, le_rfl, fun h0 => absurd h0 hk, ?_⟩, rfl⟩
    refine hlt.le.trans ?_
    norm_num [maxValue]

/-- **The limits keep an amount** below `10 ^ 20` Minima. -/
theorem truncated_eq (h : InUnits s q) (hlt : |q| < 10 ^ 20 * 10 ^ s) : MiniNumber.truncated q = q := by
  have hpos : (0 : ℚ) < 10 ^ s := by positivity
  have hbase := h.div_pow
  have hlt' : |q / 10 ^ s| < 10 ^ 20 := by
    rwa [abs_div, abs_of_pos hpos, div_lt_iff₀ hpos]
  obtain ⟨k, hk⟩ := hbase
  rw [pow_zero, mul_one] at hk
  have hmul := Token.truncated_mul_pow hk s
  rw [(h.div_pow.representable hlt').truncated_eq, div_mul_cancel₀ _ hpos.ne'] at hmul
  exact hmul

/-- **An amount from `10 ^ 20` Minima on** stays there. -/
theorem le_truncated (h : InUnits s q) (hle : 10 ^ 20 * 10 ^ s ≤ q) :
    10 ^ 20 * 10 ^ s ≤ MiniNumber.truncated q := by
  have hpos : (0 : ℚ) < 10 ^ s := by positivity
  obtain ⟨k, hk⟩ := h.div_pow
  rw [pow_zero, mul_one] at hk
  have hmul := Token.truncated_mul_pow hk s
  rw [div_mul_cancel₀ _ hpos.ne'] at hmul
  rw [hmul]
  refine mul_le_mul_of_nonneg_right ?_ hpos.le
  have hle' : ((10 ^ 20 : ℕ) : ℚ) ≤ q / 10 ^ s := by
    rw [le_div_iff₀ hpos]
    exact_mod_cast hle
  exact_mod_cast natCast_le_truncated (by norm_num : 10 ^ 20 < 10 ^ 63) hle'

end InUnits

variable {s : ℕ} {a b c : MiniNumber}

theorem inUnits_of_add (ha : InUnits s a.toRat) (hb : InUnits s b.toRat) (h : a.add b = .ok c) :
    InUnits s c.toRat := by
  rw [(add_truncates a b).toRat_eq h]
  exact (ha.add hb).truncated

/-- **A sum of amounts** below `10 ^ 20` Minima. -/
theorem add_inUnits (ha : InUnits s a.toRat) (hb : InUnits s b.toRat)
    (hlt : |a.toRat + b.toRat| < 10 ^ 20 * 10 ^ s) (h : a.add b = .ok c) :
    c.toRat = a.toRat + b.toRat := by
  rw [(add_truncates a b).toRat_eq h, (ha.add hb).truncated_eq hlt]

/-- **A difference of amounts** below `10 ^ 20` Minima. -/
theorem sub_inUnits (ha : InUnits s a.toRat) (hb : InUnits s b.toRat)
    (hlt : |a.toRat - b.toRat| < 10 ^ 20 * 10 ^ s) (h : a.sub b = .ok c) :
    c.toRat = a.toRat - b.toRat := by
  rw [(sub_truncates a b).toRat_eq h, (ha.sub hb).truncated_eq hlt]

/-! ## Loops that add up amounts -/

variable {α : Type} {f : α → MiniNumber}

/-- A sum that has reached `10 ^ 20` Minima stays there. -/
theorem le_of_foldlM_add {xs : List α} (hxs : ∀ x ∈ xs, InUnits s (f x).toRat ∧ 0 ≤ (f x).toRat)
    (ha : InUnits s a.toRat) (hle : 10 ^ 20 * 10 ^ s ≤ a.toRat)
    (h : xs.foldlM (fun acc x => acc.add (f x)) a = .ok c) : 10 ^ 20 * 10 ^ s ≤ c.toRat := by
  induction xs generalizing a with
  | nil =>
    obtain rfl := Except.ok.inj h
    exact hle
  | cons x xs ih =>
    obtain ⟨hx, hrest⟩ := List.forall_mem_cons.mp hxs
    rw [List.foldlM_cons] at h
    obtain ⟨b, hb, h⟩ := Result.bind_eq_ok.mp h
    refine ih hrest (inUnits_of_add ha hx.1 hb) ?_ h
    rw [(add_truncates a (f x)).toRat_eq hb]
    exact (ha.add hx.1).le_truncated (by linarith [hx.2])

/-- **A loop that adds up amounts** is exact when the result is below `10 ^ 20` Minima. -/
theorem foldlM_add_eq {xs : List α} (hxs : ∀ x ∈ xs, InUnits s (f x).toRat ∧ 0 ≤ (f x).toRat)
    (ha : InUnits s a.toRat) (hpos : 0 ≤ a.toRat)
    (h : xs.foldlM (fun acc x => acc.add (f x)) a = .ok c) (hlt : c.toRat < 10 ^ 20 * 10 ^ s) :
    c.toRat = a.toRat + (xs.map fun x => (f x).toRat).sum := by
  induction xs generalizing a with
  | nil =>
    obtain rfl := Except.ok.inj h
    simp
  | cons x xs ih =>
    obtain ⟨hx, hrest⟩ := List.forall_mem_cons.mp hxs
    rw [List.foldlM_cons] at h
    obtain ⟨b, hb, h⟩ := Result.bind_eq_ok.mp h
    have hbunits := inUnits_of_add ha hx.1 hb
    -- a partial sum in the upper range would have stayed there
    have hsmall : a.toRat + (f x).toRat < 10 ^ 20 * 10 ^ s := by
      by_contra hbig
      have hbbig : 10 ^ 20 * 10 ^ s ≤ b.toRat := by
        rw [(add_truncates a (f x)).toRat_eq hb]
        exact (ha.add hx.1).le_truncated (not_lt.mp hbig)
      exact absurd hlt (not_lt.mpr (le_of_foldlM_add hrest hbunits hbbig h))
    have hbvalue := add_inUnits ha hx.1 (by rwa [abs_of_nonneg (add_nonneg hpos hx.2)]) hb
    rw [ih hrest hbunits (hbvalue ▸ add_nonneg hpos hx.2) h, hbvalue, List.map_cons, List.sum_cons]
    ring

/-- A sum of amounts is one. -/
theorem inUnits_of_foldlM_add {xs : List α} (hxs : ∀ x ∈ xs, InUnits s (f x).toRat ∧ 0 ≤ (f x).toRat)
    (ha : InUnits s a.toRat) (hpos : 0 ≤ a.toRat)
    (h : xs.foldlM (fun acc x => acc.add (f x)) a = .ok c) : InUnits s c.toRat ∧ 0 ≤ c.toRat := by
  induction xs generalizing a with
  | nil =>
    obtain rfl := Except.ok.inj h
    exact ⟨ha, hpos⟩
  | cons x xs ih =>
    obtain ⟨hx, hrest⟩ := List.forall_mem_cons.mp hxs
    rw [List.foldlM_cons] at h
    obtain ⟨b, hb, h⟩ := Result.bind_eq_ok.mp h
    refine ih hrest (inUnits_of_add ha hx.1 hb) ?_ h
    rw [(add_truncates a (f x)).toRat_eq hb]
    exact truncated_nonneg (add_nonneg hpos hx.2)

/-! ## Equal parts -/

/-- A part of an amount that is not positive is not positive. -/
theorem toRat_nonpos_of_div (ha : a.toRat ≤ 0) (hb : 0 < b.toRat) (hplaces : b.Canonical)
    (hbig : b.toRat < 10 ^ 60) (h : a.div b = .ok c) : c.toRat ≤ 0 := by
  have hb0 : b.unscaled ≠ 0 := by
    intro h0
    rw [toRat, h0, value_zero_left] at hb
    exact lt_irrefl _ hb
  have hscale := neg_scale_le_of_lt hb hbig
  have hmax := hplaces.places
  have hlow : -66 ≤ b.scale := by omega
  have hhigh : b.scale < 2 ^ 31 := hmax.trans_lt (by decide)
  rw [(div_truncates a hb0 hlow hhigh).toRat_eq h]
  have hquot : 0 ≤ -(a.toRat / b.toRat) := by
    rw [← neg_div]
    exact div_nonneg (neg_nonneg.mpr ha) hb.le
  have hcut := cutPlaces_nonneg (a.scale + 66) hquot
  rw [cutPlaces_neg] at hcut
  exact truncated_nonpos (by linarith)

/-- **A part of an amount** is not larger than the exact part. -/
theorem div_le (ha : 0 ≤ a.toRat) (ha' : a.toRat ≤ maxValue) (hb : 1 ≤ b.toRat) (hplaces : b.Canonical)
    (hbig : b.toRat < 10 ^ 60) (h : a.div b = .ok c) : 0 ≤ c.toRat ∧ c.toRat ≤ a.toRat / b.toRat := by
  have hquot : a.toRat / b.toRat ≤ maxValue := (div_le_self ha hb).trans ha'
  obtain ⟨c', hc', hnonneg, hle, -⟩ :=
    exists_div_eq_ok ha (zero_lt_one.trans_le hb) hbig hplaces.places hquot
  rw [h, Except.ok.injEq] at hc'
  exact hc' ▸ ⟨hnonneg, hle⟩

end Minima.MiniNumber
