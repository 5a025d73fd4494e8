import Minima.Base.Arithmetic
import Minima.Kissvm.Contract

/-! # The scale of a token

A coin of a token has an amount in Minima, which is the amount of the token without as many decimal
places as the scale says. The two conversions multiply and divide by ten, once for each place.

* **`Token.getScaledMinimaAmount`** — from the amount of a token to Minima.
* **`Token.scaling_lossless`** — nothing is lost, and sums stay sums. -/

namespace Minima

open Decimal

namespace MiniNumber

/-! ## What a number can stand for -/

/-- The rational is the value of a number inside the limits. -/
def Representable (q : ℚ) : Prop := ∃ x : MiniNumber, x.Canonical ∧ x.toRat = q

/-- The limits leave the value of a number as it is. -/
theorem Representable.truncated_eq {q : ℚ} (h : Representable q) : truncated q = q := by
  obtain ⟨x, hx, rfl⟩ := h
  have hdigits : cutDigits maxDigits x.toRat = x.toRat := by
    rw [toRat, ← value_keepDigits_eq, keepDigits_of_lt hx.digits]
    split_ifs with h0
    · rw [h0, value_zero_left, value_zero_left]
    · rfl
  rw [truncated, hdigits, toRat, cutPlaces_of_le _ hx.places]

theorem Representable.abs_le {q : ℚ} (h : Representable q) : |q| ≤ maxValue := by
  obtain ⟨x, hx, rfl⟩ := h
  exact hx.bound

/-- **A result that is a number** is returned as it is. -/
theorem Truncates.exists_eq {r : Result MiniNumber} {q : ℚ} (h : Truncates r q) (hq : Representable q) :
    ∃ c, r = .ok c ∧ c.toRat = q := by
  obtain ⟨c, hc, hvalue⟩ := h.exists_ok hq.abs_le
  exact ⟨c, hc, hvalue.trans hq.truncated_eq⟩

/-- A number with its point further to the right stands for a number if it is in range. -/
theorem Representable.mul_pow {q : ℚ} (h : Representable q) (k : ℕ) (hbound : |q * 10 ^ k| ≤ maxValue) :
    Representable (q * 10 ^ k) := by
  obtain ⟨x, hx, rfl⟩ := h
  by_cases h0 : x.unscaled = 0
  · refine ⟨zero, canonical_zero, ?_⟩
    rw [toRat_zero, toRat, h0, value_zero_left, zero_mul]
  · have hvalue : (⟨x.unscaled, x.scale - k⟩ : MiniNumber).toRat = x.toRat * 10 ^ k := by
      have h10 : (10 : ℚ) ≠ 0 := by norm_num
      rw [toRat, toRat, value, value, mul_assoc, ← zpow_natCast, ← zpow_add₀ h10]
      congr 2
      ring
    have hplaces := hx.places
    refine ⟨⟨x.unscaled, x.scale - k⟩, ⟨hx.digits, ?_, fun h => absurd h h0, ?_⟩, hvalue⟩
    · show x.scale - k ≤ maxDecimalPlaces
      omega
    · rw [hvalue]
      exact hbound

/-- All places between two numbers are numbers. -/
theorem Representable.div_pow {q : ℚ} {s i : ℕ} (hq : Representable q) (h : Representable (q / 10 ^ s))
    (hi : i ≤ s) : Representable (q / 10 ^ i) := by
  have h10 : (10 : ℚ) ≠ 0 := by norm_num
  have heq : q / 10 ^ i = q / 10 ^ s * 10 ^ (s - i) := by
    rw [div_mul_eq_mul_div, eq_div_iff (pow_ne_zero _ h10), div_mul_eq_mul_div,
      div_eq_iff (pow_ne_zero _ h10), mul_assoc, ← pow_add, Nat.sub_add_cancel hi]
  rw [heq]
  refine h.mul_pow (s - i) ?_
  rw [← heq, abs_div, abs_of_pos (by positivity : (0 : ℚ) < 10 ^ i)]
  refine (div_le_self (abs_nonneg q) ?_).trans hq.abs_le
  exact one_le_pow₀ (by norm_num)

/-- A number times ten, as often as that stays in range. -/
theorem mult_ten {x : MiniNumber} (h : Representable (x.toRat * 10)) :
    ∃ c, x.mult (.ofInt 10) = .ok c ∧ c.toRat = x.toRat * 10 := by
  have hmult := mult_truncates x (.ofInt 10)
  rw [toRat_ofInt, Int.cast_ofNat] at hmult
  exact hmult.exists_eq h

/-- A tenth of a number, as long as it is a number. -/
theorem div_ten {x : MiniNumber} (h : Representable (x.toRat / 10)) :
    ∃ c, x.div (.ofInt 10) = .ok c ∧ c.toRat = x.toRat / 10 := by
  have h10 : (10 : ℚ) ≠ 0 := by norm_num
  have hdiv := div_truncates x (by decide : (ofInt 10).unscaled ≠ 0) (by decide) (by decide)
  have htenth : x.toRat / 10 = value x.unscaled (x.scale + 1) := by
    rw [toRat, value, value, neg_add, zpow_add₀ h10, zpow_neg_one, div_eq_mul_inv, mul_assoc]
  rw [toRat_ofInt, Int.cast_ofNat, htenth, cutPlaces_of_le _ (by omega), ← htenth] at hdiv
  exact hdiv.exists_eq h

end MiniNumber

/-! ## The conversions -/

namespace Token

open MiniNumber

/-- How often the loops of the conversions turn. -/
def scaleTurns (t : Token) : ℕ := t.tokenScale.val.getAsInt.toNat

/-- `getScaledMinimaAmount`: the amount divided by ten, as often as the scale says. -/
def getScaledMinimaAmount (t : Token) (zTokenAmount : MiniNumber) : Result MiniNumber :=
  (List.range t.tokenScale.val.getAsInt.toNat).foldlM (fun current _ => current.div (.ofInt 10))
    zTokenAmount

/-- `getDecimalPlaces`. The source subtracts in `int`, which holds the difference for every scale from
`44 - (2 ^ 31 - 1)` on, and so for those of all tokens but ones decoded with a scale of minus two billion. -/
def getDecimalPlaces (t : Token) : ℤ := maxDecimalPlaces - t.tokenScale.val.getAsInt

/-- The amount without as many places as the scale says is a number. -/
def Scalable (t : Token) (zTokenAmount : MiniNumber) : Prop :=
  Representable (zTokenAmount.toRat / 10 ^ t.scaleTurns)

/-- A loop whose turns all succeed: `step i` is the value behind turn `i`. -/
theorem foldlM_values {f : MiniNumber → Result MiniNumber} (step : ℕ → ℚ) {n : ℕ}
    (hstep : ∀ i < n, ∀ x : MiniNumber, x.toRat = step i → ∃ c, f x = .ok c ∧ c.toRat = step (i + 1))
    {x : MiniNumber} (hx : x.toRat = step 0) :
    ∃ c, (List.range n).foldlM (fun current _ => f current) x = .ok c ∧ c.toRat = step n := by
  induction n with
  | zero => exact ⟨x, rfl, hx⟩
  | succ n ih =>
    obtain ⟨b, hb, hvalue⟩ := ih fun i hi => hstep i (by omega)
    obtain ⟨c, hc, hvalue'⟩ := hstep n (Nat.lt_succ_self n) b hvalue
    refine ⟨c, ?_, hvalue'⟩
    rw [List.range_succ, List.foldlM_append, hb]
    show List.foldlM (fun current _ => f current) b [n] = .ok c
    rw [List.foldlM_cons, hc]
    rfl

/-- **Minima for an amount of a token**, where that is a number: it is exact. -/
theorem getScaledMinimaAmount_eq (t : Token) {x : MiniNumber} (hx : x.Canonical) (h : t.Scalable x) :
    ∃ m, t.getScaledMinimaAmount x = .ok m ∧ m.toRat = x.toRat / 10 ^ t.scaleTurns := by
  have hrep : Representable x.toRat := ⟨x, hx, rfl⟩
  refine foldlM_values (fun i => x.toRat / 10 ^ i) (fun i hi y hy => ?_) (by simp)
  have hi' : i < t.scaleTurns := hi
  have hten : x.toRat / 10 ^ (i + 1) = y.toRat / 10 := by
    rw [hy, pow_succ, div_div]
  have hnext := hrep.div_pow h (by omega : i + 1 ≤ t.scaleTurns)
  show ∃ c : MiniNumber, _ ∧ c.toRat = x.toRat / 10 ^ (i + 1)
  rw [hten] at hnext ⊢
  exact div_ten hnext

/-- **The amount of a token for Minima**, where that is in range: it is exact. -/
theorem getScaledTokenAmount_eq (t : Token) {m : MiniNumber} (hm : Representable m.toRat)
    (h : |m.toRat * 10 ^ t.scaleTurns| ≤ maxValue) :
    ∃ x, t.getScaledTokenAmount m = .ok x ∧ x.toRat = m.toRat * 10 ^ t.scaleTurns := by
  refine foldlM_values (fun i => m.toRat * 10 ^ i) (fun i hi y hy => ?_) (by simp)
  have hi' : i < t.scaleTurns := hi
  have hten : m.toRat * 10 ^ (i + 1) = y.toRat * 10 := by
    rw [hy, pow_succ, mul_assoc]
  have hnext : Representable (m.toRat * 10 ^ (i + 1)) := by
    refine hm.mul_pow _ (le_trans ?_ h)
    rw [abs_mul, abs_mul, abs_of_pos (by positivity : (0 : ℚ) < 10 ^ (i + 1)),
      abs_of_pos (by positivity : (0 : ℚ) < 10 ^ t.scaleTurns)]
    exact mul_le_mul_of_nonneg_left (pow_le_pow_right₀ (by norm_num) (by omega)) (abs_nonneg _)
  show ∃ c : MiniNumber, _ ∧ c.toRat = m.toRat * 10 ^ (i + 1)
  rw [hten] at hnext ⊢
  exact mult_ten hnext

/-- An amount in Minima has at most 44 places. -/
theorem Scalable.exists_value {t : Token} {x : MiniNumber} (h : t.Scalable x) :
    ∃ k : ℤ, x.toRat / 10 ^ t.scaleTurns = value k maxDecimalPlaces := by
  obtain ⟨m, hm, hvalue⟩ := h
  exact ⟨_, hvalue.symm.trans (value_rescale_to m.unscaled hm.places).symm⟩

/-- **An amount can be scaled** exactly when it has no more decimal places than the token. -/
theorem scalable_iff (t : Token) {x : MiniNumber} (hx : x.Canonical) :
    t.Scalable x ↔ ∃ k : ℤ, x.toRat = value k t.getDecimalPlaces := by
  have h10 : (10 : ℚ) ≠ 0 := by norm_num
  have hplaces := hx.places
  by_cases hneg : t.tokenScale.val.getAsInt < 0
  · -- the loops do not turn
    have hturns : t.scaleTurns = 0 := Int.toNat_of_nonpos hneg.le
    refine iff_of_true ?_ ⟨_, (value_rescale_to x.unscaled (?_ : x.scale ≤ t.getDecimalPlaces)).symm⟩
    · rw [Scalable, hturns, pow_zero, div_one]
      exact ⟨x, hx, rfl⟩
    · unfold getDecimalPlaces
      omega
  · have hturns : (t.scaleTurns : ℤ) = t.tokenScale.val.getAsInt :=
      Int.toNat_of_nonneg (not_lt.mp hneg)
    have hshift : ∀ k : ℤ, value k t.getDecimalPlaces = value k maxDecimalPlaces * 10 ^ t.scaleTurns := by
      intro k
      rw [value, value, mul_assoc, ← zpow_natCast, ← zpow_add₀ h10, hturns, getDecimalPlaces]
      congr 2
      ring
    constructor
    · intro h
      obtain ⟨k, hk⟩ := h.exists_value
      refine ⟨k, ?_⟩
      rw [hshift, ← hk, div_mul_cancel₀ _ (pow_ne_zero _ h10)]
    · rintro ⟨k, hk⟩
      have hscaled : x.toRat / 10 ^ t.scaleTurns = value k maxDecimalPlaces := by
        rw [hk, hshift, mul_div_assoc, div_self (pow_ne_zero _ h10), mul_one]
      have hbound : |x.toRat / 10 ^ t.scaleTurns| ≤ maxValue := by
        rw [abs_div, abs_of_pos (by positivity : (0 : ℚ) < 10 ^ t.scaleTurns)]
        exact (div_le_self (abs_nonneg _) (one_le_pow₀ (by norm_num))).trans hx.bound
      by_cases h0 : x.unscaled = 0
      · refine ⟨zero, canonical_zero, ?_⟩
        rw [toRat_zero, toRat, h0, value_zero_left, zero_div]
      by_cases hfit : x.scale + t.scaleTurns ≤ maxDecimalPlaces
      · -- the same digits, with the point moved
        have hvalue : (⟨x.unscaled, x.scale + t.scaleTurns⟩ : MiniNumber).toRat
            = x.toRat / 10 ^ t.scaleTurns := by
          rw [toRat, toRat, value, value, neg_add, zpow_add₀ h10, zpow_neg, zpow_neg, zpow_natCast,
            div_eq_mul_inv, mul_assoc]
        refine ⟨⟨x.unscaled, x.scale + t.scaleTurns⟩,
          ⟨hx.digits, hfit, fun h => absurd h h0, ?_⟩, hvalue⟩
        rw [hvalue]
        exact hbound
      · -- the last digits are zeros
        obtain ⟨d, hd⟩ := Int.eq_ofNat_of_zero_le
          (by omega : 0 ≤ x.scale + t.scaleTurns - maxDecimalPlaces)
        have hu : x.unscaled = k * 10 ^ d := by
          have heq : value x.unscaled x.scale = value (k * 10 ^ d) x.scale := by
            have hsame : (t.getDecimalPlaces + d : ℤ) = x.scale := by
              unfold getDecimalPlaces
              omega
            have hback := value_rescale k t.getDecimalPlaces d
            rw [hsame] at hback
            rw [hback]
            exact hk
          exact value_inj.mp heq
        have hk0 : k ≠ 0 := by
          rintro rfl
          exact h0 (by rw [hu, zero_mul])
        have hdigits : |k| < 10 ^ maxDigits := by
          refine lt_of_le_of_lt ?_ hx.digits
          rw [hu, abs_mul]
          refine le_mul_of_one_le_right (abs_nonneg k) ?_
          rw [abs_of_pos (by positivity)]
          exact one_le_pow₀ (by norm_num)
        refine ⟨⟨k, maxDecimalPlaces⟩, ⟨hdigits, le_rfl, fun h => absurd h hk0, ?_⟩, hscaled.symm⟩
        rw [toRat, ← hscaled]
        exact hbound

/-! ## Sums -/

/-- A cut of a decimal has no more places. -/
theorem exists_cutPlaces_value (d u s : ℤ) : ∃ v, cutPlaces d (value u s) = value v s := by
  rw [cutPlaces_value]
  split_ifs with h
  · exact ⟨u, rfl⟩
  · exact ⟨_, (value_rescale_to _ (not_le.mp h).le).symm⟩

/-- **The limits cut a sum at the same digit** before and behind the conversion. -/
theorem truncated_mul_pow {q : ℚ} {k : ℤ} (hq : q = value k maxDecimalPlaces) (s : ℕ) :
    truncated (q * 10 ^ s) = truncated q * 10 ^ s := by
  have h10 : (10 : ℚ) ≠ 0 := by norm_num
  obtain ⟨v, hv⟩ := exists_cutPlaces_value (lastPlace maxDigits q) k maxDecimalPlaces
  have hdigits : cutDigits maxDigits q = value v maxDecimalPlaces := by
    rw [cutDigits]
    exact (congrArg _ hq).trans hv
  have hmoved : value v maxDecimalPlaces * 10 ^ s = value v (maxDecimalPlaces - s) := by
    rw [value, value, mul_assoc, ← zpow_natCast, ← zpow_add₀ h10]
    congr 2
    ring
  have hscale := cutDigits_mul_zpow maxDigits s q
  rw [zpow_natCast] at hscale
  rw [truncated, truncated, hscale, hdigits, cutPlaces_of_le v le_rfl, hmoved,
    cutPlaces_of_le v (by omega)]

/-- Two calls return numbers of one value. -/
def SameAmount (r r' : Result MiniNumber) : Prop :=
  ∃ a b, r = .ok a ∧ r' = .ok b ∧ a.toRat = b.toRat

/-- The sum of two amounts that have been converted to Minima. -/
def addScaled (t : Token) (x y : MiniNumber) : Result MiniNumber := do
  let a ← t.getScaledMinimaAmount x
  let b ← t.getScaledMinimaAmount y
  a.add b

/-- The sum of two amounts that have been converted to Minima and back. -/
def addBack (t : Token) (x y : MiniNumber) : Result MiniNumber := do
  let a ← t.getScaledMinimaAmount x >>= t.getScaledTokenAmount
  let b ← t.getScaledMinimaAmount y >>= t.getScaledTokenAmount
  a.add b

/-- **A sum of amounts** can be converted before or after it is made. -/
theorem add_scaled (t : Token) {x y z a b : MiniNumber} (hx : t.Scalable x) (hy : t.Scalable y)
    (hz : x.add y = .ok z) (ha : a.toRat = x.toRat / 10 ^ t.scaleTurns)
    (hb : b.toRat = y.toRat / 10 ^ t.scaleTurns) :
    ∃ c, a.add b = .ok c ∧ c.Canonical ∧ c.toRat = z.toRat / 10 ^ t.scaleTurns := by
  have h10 : (10 : ℚ) ^ t.scaleTurns ≠ 0 := pow_ne_zero _ (by norm_num)
  obtain ⟨k, hk⟩ := hx.exists_value
  obtain ⟨l, hl⟩ := hy.exists_value
  have hsum : a.toRat + b.toRat = value (k + l) maxDecimalPlaces := by
    rw [ha, hb, hk, hl, value_add]
  have hback : (a.toRat + b.toRat) * 10 ^ t.scaleTurns = x.toRat + y.toRat := by
    rw [ha, hb, add_mul, div_mul_cancel₀ _ h10, div_mul_cancel₀ _ h10]
  have hcut : truncated (a.toRat + b.toRat) = z.toRat / 10 ^ t.scaleTurns := by
    rw [(add_truncates x y).toRat_eq hz, ← hback, truncated_mul_pow hsum, mul_div_assoc, div_self h10,
      mul_one]
  have hzbound : |z.toRat| ≤ maxValue := (canonical_of_checked hz).bound
  have hbound : |truncated (a.toRat + b.toRat)| ≤ maxValue := by
    rw [hcut, abs_div, abs_of_pos (by positivity : (0 : ℚ) < 10 ^ t.scaleTurns)]
    exact (div_le_self (abs_nonneg _) (one_le_pow₀ (by norm_num))).trans hzbound
  rcases add_truncates a b with ⟨c, hc, hvalue, -⟩ | ⟨-, hbig⟩
  · exact ⟨c, hc, canonical_of_checked hc, hvalue.trans hcut⟩
  · exact absurd hbound (not_le.mpr hbig)

/-- **The conversions lose nothing**: amounts with the places of the token come back, and the sum of
two of them is the same whether they are converted before or after. -/
theorem scaling_lossless (t : Token) {x y : MiniNumber} (hx : x.Canonical) (hy : y.Canonical)
    (hxs : t.Scalable x) (hys : t.Scalable y) :
    SameAmount (t.getScaledMinimaAmount x >>= t.getScaledTokenAmount) (.ok x) ∧
      (t.Scalable x ↔ ∃ k : ℤ, x.toRat = value k t.getDecimalPlaces) ∧
      ∀ z, x.add y = .ok z →
        t.Scalable z ∧ (Representable (x.toRat + y.toRat) → z.toRat = x.toRat + y.toRat) ∧
        SameAmount (t.getScaledMinimaAmount z) (t.addScaled x y) ∧
        SameAmount (t.addScaled x y >>= t.getScaledTokenAmount) (t.addBack x y) := by
  have h10 : (10 : ℚ) ^ t.scaleTurns ≠ 0 := pow_ne_zero _ (by norm_num)
  obtain ⟨a, hax, ha⟩ := t.getScaledMinimaAmount_eq hx hxs
  obtain ⟨b, hby, hb⟩ := t.getScaledMinimaAmount_eq hy hys
  -- an amount in Minima comes back to the amount it was made from
  have hback : ∀ {w m : MiniNumber}, w.Canonical → t.Scalable w → m.toRat = w.toRat / 10 ^ t.scaleTurns →
      ∃ w', t.getScaledTokenAmount m = .ok w' ∧ w'.toRat = w.toRat := by
    intro w m hw hws hm
    have hmul : m.toRat * 10 ^ t.scaleTurns = w.toRat := by
      rw [hm, div_mul_cancel₀ _ h10]
    obtain ⟨w', hw', hvalue⟩ := t.getScaledTokenAmount_eq (hm ▸ hws) (hmul ▸ hw.bound)
    exact ⟨w', hw', hvalue.trans hmul⟩
  obtain ⟨x', hx', hxx⟩ := hback hx hxs ha
  obtain ⟨y', hy', hyy⟩ := hback hy hys hb
  refine ⟨⟨x', x, ?_, rfl, hxx⟩, t.scalable_iff hx, fun z hz => ?_⟩
  · rw [hax]
    exact hx'
  obtain ⟨c, hc, hcanonical, hcz⟩ := t.add_scaled hxs hys hz ha hb
  have hzcanonical : z.Canonical := canonical_of_checked hz
  have hzs : t.Scalable z := ⟨c, hcanonical, hcz⟩
  obtain ⟨m, hm, hmz⟩ := t.getScaledMinimaAmount_eq hzcanonical hzs
  obtain ⟨z', hz', hzz⟩ := hback hzcanonical hzs hcz
  refine ⟨hzs, fun hrep => ?_, ⟨m, c, hm, ?_, hmz.trans hcz.symm⟩, ?_⟩
  · obtain ⟨z'', hsum, hvalue⟩ := (add_truncates x y).exists_eq hrep
    rw [hz, Except.ok.injEq] at hsum
    rw [hsum, hvalue]
  · rw [addScaled, hax, hby]
    exact hc
  · -- the sum of the amounts that came back is cut as the sum of the amounts
    have hsum := add_truncates x' y'
    rw [hxx, hyy] at hsum
    have hztrunc := (add_truncates x y).toRat_eq hz
    obtain ⟨w, hw, hwz⟩ : ∃ w, x'.add y' = .ok w ∧ w.toRat = z.toRat := by
      rcases hsum with ⟨w, hw, hvalue, -⟩ | ⟨-, hbig⟩
      · exact ⟨w, hw, hvalue.trans hztrunc.symm⟩
      · rw [← hztrunc] at hbig
        exact absurd hzcanonical.bound (not_le.mpr hbig)
    refine ⟨z', w, ?_, ?_, hzz.trans hwz.symm⟩
    · rw [addScaled, hax, hby]
      show (a.add b >>= t.getScaledTokenAmount) = _
      rw [hc]
      exact hz'
    · rw [addBack, hax, hby]
      show (t.getScaledTokenAmount a >>= fun p => t.getScaledTokenAmount b >>= fun q => p.add q) = _
      rw [hx', hy']
      exact hw

/-- A token with eight places less than Minima. -/
def sampleToken : Token where
  coinID := ⟨[1]⟩
  tokenScale := ⟨⟨8, 0⟩, by decide⟩
  tokenMinimaAmount := ⟨⟨1, 0⟩, MiniNumber.canonical_one⟩
  tokenName := MiniNumber.ascii "T"
  tokenScript := MiniNumber.ascii "RETURN TRUE"
  tokenCreated := ⟨⟨0, 0⟩, MiniNumber.canonical_zero⟩

theorem sampleToken_scaling :
    SameAmount (sampleToken.getScaledMinimaAmount ⟨15, 1⟩ >>= sampleToken.getScaledTokenAmount)
      (.ok ⟨15, 1⟩) := by
  have hturns : sampleToken.scaleTurns = 8 := by decide
  have hfirst : sampleToken.Scalable ⟨15, 1⟩ := by
    refine ⟨⟨15, 9⟩, by decide, ?_⟩
    rw [hturns]
    norm_num [toRat, value]
  have hsecond : sampleToken.Scalable ⟨2, 0⟩ := by
    refine ⟨⟨2, 8⟩, by decide, ?_⟩
    rw [hturns]
    norm_num [toRat, value]
  exact (scaling_lossless sampleToken (by decide : Canonical ⟨15, 1⟩)
    (by decide : Canonical ⟨2, 0⟩) hfirst hsecond).1

end Token

end Minima
