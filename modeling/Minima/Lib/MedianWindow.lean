import Mathlib

/-! # Sequences that stay near the median of their last values

Every value of a sequence is at or a little above the median of a window of the values before it. The
windows go forward: where one begins, no later one begins earlier. They may be cut short at any time.

* **`not_switch`** — a sequence of two labels, each the majority of its window, does not change its label
  for long: every change needs a smaller window than the change before.
* **`MedianRun.abs_sub_le_mul`** — so two values of the sequence are as far apart as their positions are, up
  to a factor, however long the sequence is. -/

open Finset

/-- **Windows that go forward**, up to position `last`: each is behind its position, and has no more than
`size` positions. -/
structure Windows (start : ℕ → ℕ) (size last : ℕ) : Prop where
  mono : ∀ i j, i ≤ j → j ≤ last → start i ≤ start j
  lt : ∀ i, 0 < i → i ≤ last → start i < i
  le : ∀ i, i ≤ last → i ≤ start i + size

/-! ## Two labels -/

section Labels

variable {label : ℕ → ℤ} {start : ℕ → ℕ} {size last : ℕ}

/-- **The majority of the window** is the label at `i`; with as many of both, it is `1`. -/
def Majority (label : ℕ → ℤ) (start : ℕ → ℕ) (i : ℕ) : Prop :=
  label i = if 0 ≤ ∑ j ∈ Ico (start i) i, label j then 1 else -1

/-- The label changes at `q`. -/
def Switch (label : ℕ → ℤ) (q : ℕ) : Prop := 0 < q ∧ label q ≠ label (q - 1)

theorem abs_sum_Ico_le (hlabel : ∀ i, label i = 1 ∨ label i = -1) {a b : ℕ} (h : a ≤ b) :
    |∑ j ∈ Ico a b, label j| ≤ b - a := by
  calc |∑ j ∈ Ico a b, label j| ≤ ∑ j ∈ Ico a b, |label j| := abs_sum_le_sum_abs _ _
    _ = ∑ _j ∈ Ico a b, (1 : ℤ) := by
        refine sum_congr rfl fun j _ => ?_
        rcases hlabel j with hj | hj <;> rw [hj] <;> rfl
    _ = b - a := by
        rw [sum_const, Nat.card_Ico, nsmul_one]
        exact Nat.cast_sub h

theorem sum_Ico_of_forall {a b : ℕ} {y : ℤ} (h : a ≤ b) (hall : ∀ j, a ≤ j → j < b → label j = y) :
    ∑ j ∈ Ico a b, label j = (b - a) * y := by
  rw [sum_congr rfl fun j hj => hall j (mem_Ico.mp hj).1 (mem_Ico.mp hj).2, sum_const, Nat.card_Ico,
    nsmul_eq_mul, Nat.cast_sub h]

/-- The label of a switch was in the window already. -/
theorem Majority.exists_eq (hlabel : ∀ i, label i = 1 ∨ label i = -1) {q : ℕ}
    (h : Majority label start q) (hlt : start q < q) : ∃ j, start q ≤ j ∧ j < q ∧ label j = label q := by
  by_contra hnone
  have hall : ∀ j, start q ≤ j → j < q → label j = -label q := by
    intro j hj hjq
    have hne : label j ≠ label q := fun heq => hnone ⟨j, hj, hjq, heq⟩
    rcases hlabel j with h1 | h1 <;> rcases hlabel q with h2 | h2 <;> omega
  have hsum := sum_Ico_of_forall hlt.le hall
  rw [Majority, hsum] at h
  have hpos : (0 : ℤ) < q - start q := by omega
  rcases hlabel q with hq | hq
  · rw [hq, if_neg (by omega)] at h
    omega
  · rw [hq, if_pos (by omega)] at h
    omega

/-- **The switch before a switch** is in its window, and has a longer window itself. -/
theorem Switch.exists_earlier (hw : Windows start size last) (hlabel : ∀ i, label i = 1 ∨ label i = -1)
    {q : ℕ} (h : Switch label q) (hq : q ≤ last) (hmajor : Majority label start q) :
    ∃ p, Switch label p ∧ p < q ∧ q ≤ p + size ∧
      (Majority label start p → q - start q < p - start p) := by
  obtain ⟨hpos, hne⟩ := h
  obtain ⟨j, hj, hjq, hsame⟩ := hmajor.exists_eq hlabel (hw.lt q hpos hq)
  -- the last position before `q` that has the label of `q`
  have hbound : j ≤ q - 1 := by omega
  set k := Nat.findGreatest (fun i => label i = label q) (q - 1) with hk
  have hklabel : label k = label q := Nat.findGreatest_spec (P := fun i => label i = label q) hbound hsame
  have hjk : j ≤ k := Nat.le_findGreatest hbound hsame
  have hkq : k ≤ q - 1 := Nat.findGreatest_le _
  have hk1 : k ≠ q - 1 := by
    intro heq
    rw [heq] at hklabel
    exact hne hklabel.symm
  have hrun : ∀ i, k + 1 ≤ i → i < q → label i = -label q := by
    intro i hi hiq
    have hdiff : label i ≠ label q := Nat.findGreatest_is_greatest (P := fun i => label i = label q) hi (by omega)
    rcases hlabel i with h1 | h1 <;> rcases hlabel q with h2 | h2 <;> omega
  have hwindow := hw.le q hq
  refine ⟨k + 1, ⟨Nat.succ_pos k, ?_⟩, by omega, by omega, fun hp => ?_⟩
  · rw [Nat.add_sub_cancel, hrun (k + 1) le_rfl (by omega), hklabel]
    rcases hlabel q with h2 | h2 <;> omega
  · have hstart := hw.mono (k + 1) q (by omega) hq
    have hlt := hw.lt (k + 1) (Nat.succ_pos k) (by omega)
    have hsplit := sum_Ico_consecutive label (show start q ≤ k + 1 by omega) (show k + 1 ≤ q by omega)
    have hsplit' := sum_Ico_consecutive label hstart (show start q ≤ k + 1 by omega)
    have habs := abs_le.mp (abs_sum_Ico_le hlabel hstart)
    rw [sum_Ico_of_forall (by omega) hrun] at hsplit
    have hplabel := hrun (k + 1) le_rfl (by omega)
    rw [Majority] at hp hmajor
    -- what the later window has lost is a majority, larger than the run
    push_cast at hsplit
    rcases hlabel q with h2 | h2
    · rw [h2] at hsplit hplabel hmajor
      split_ifs at hp hmajor with hp0 hq0 <;> omega
    · rw [h2] at hsplit hplabel hmajor
      split_ifs at hp hmajor with hp0 hq0 <;> omega

/-- **Switches use up the window.** With the majority at the last `n * size` positions, `n` positions
of the window are used up. -/
theorem Switch.add_le (hw : Windows start size last) (hlabel : ∀ i, label i = 1 ∨ label i = -1) (n : ℕ)
    {q : ℕ} (h : Switch label q) (hq : q ≤ last)
    (hmajor : ∀ i, 0 < i → i ≤ q → q ≤ i + n * size → Majority label start i) :
    q - start q + n ≤ size := by
  induction n generalizing q with
  | zero =>
    have := hw.le q hq
    omega
  | succ n ih =>
    have hself : q ≤ q + (n + 1) * size := Nat.le_add_right _ _
    obtain ⟨p, hp, hpq, hsize, hlonger⟩ := h.exists_earlier hw hlabel hq (hmajor q h.1 le_rfl hself)
    rw [add_mul, one_mul] at hmajor
    have hearlier := ih hp (by omega) fun i hi hip hpi => hmajor i hi (by omega) (by omega)
    have hshorter := hlonger (hmajor p hp.1 hpq.le (by omega))
    omega

/-- **No switch comes** after the majority has been the label for `size * size` positions. -/
theorem not_switch (hw : Windows start size last) (hlabel : ∀ i, label i = 1 ∨ label i = -1) {q : ℕ}
    (hq : q ≤ last) (hmajor : ∀ i, 0 < i → i ≤ q → q ≤ i + size * size → Majority label start i) :
    ¬ Switch label q := by
  intro h
  have hle := h.add_le hw hlabel size hq hmajor
  have hlt := hw.lt q h.1 hq
  omega

/-- Between two different labels there is a switch. -/
theorem exists_switch {a b : ℕ} (hab : a ≤ b) (h : label a ≠ label b) :
    ∃ q, Switch label q ∧ a < q ∧ q ≤ b := by
  induction b, hab using Nat.le_induction with
  | base => exact absurd rfl h
  | succ b hab ih =>
    by_cases hb : label (b + 1) = label b
    · obtain ⟨q, hq, haq, hqb⟩ := ih (hb ▸ h)
      exact ⟨q, hq, haq, hqb.trans (Nat.le_succ b)⟩
    · exact ⟨b + 1, ⟨Nat.succ_pos b, hb⟩, Nat.lt_succ_of_le hab, le_rfl⟩

end Labels

/-! ## Values -/

section Values

variable {K : Type*} [LinearOrder K]

/-- **The median** of the values at some positions; of an even number of values it is the upper one. -/
structure IsMedian (value : ℕ → K) (window : Finset ℕ) (m : K) : Prop where
  mem : ∃ j ∈ window, value j = m
  below : #{j ∈ window | value j < m} ≤ window.card / 2
  upto : window.card / 2 < #{j ∈ window | value j ≤ m}

/-- A value is at most the median exactly when it has at least half of the values on its upper side. -/
theorem IsMedian.le_iff {value : ℕ → K} {window : Finset ℕ} {m : K} (h : IsMedian value window m) (x : K) :
    x ≤ m ↔ #{j ∈ window | ¬ x ≤ value j} ≤ #{j ∈ window | x ≤ value j} := by
  have hsum := card_filter_add_card_filter_not (s := window) fun j => x ≤ value j
  constructor
  · intro hx
    have hle : #{j ∈ window | ¬ x ≤ value j} ≤ #{j ∈ window | value j < m} := by
      refine card_le_card (monotone_filter_right _ fun j _ hj => ?_)
      exact (not_le.mp hj).trans_le hx
    have := h.below
    omega
  · intro hcard
    by_contra hx
    have hle : #{j ∈ window | value j ≤ m} ≤ #{j ∈ window | ¬ x ≤ value j} := by
      refine card_le_card (monotone_filter_right _ fun j _ hj => ?_)
      exact not_le.mpr (lt_of_le_of_lt hj (not_le.mp hx))
    have := h.upto
    omega

theorem IsMedian.congr {value value' : ℕ → K} {window : Finset ℕ} {m : K} (h : IsMedian value window m)
    (hsame : ∀ j ∈ window, value' j = value j) : IsMedian value' window m := by
  have hcount : ∀ p : K → Prop, ∀ [DecidablePred p],
      #{j ∈ window | p (value' j)} = #{j ∈ window | p (value j)} := fun p _ =>
    congrArg card (filter_congr fun j hj => by rw [hsame j hj])
  obtain ⟨j, hj, heq⟩ := h.mem
  exact ⟨⟨j, hj, (hsame j hj).trans heq⟩, (hcount (· < m)).trans_le h.below,
    h.upto.trans_eq (hcount (· ≤ m)).symm⟩

/-- On which side of `x` a value is. -/
def side (value : ℕ → K) (x : K) (i : ℕ) : ℤ := if x ≤ value i then 1 else -1

theorem side_eq (value : ℕ → K) (x : K) (i : ℕ) : side value x i = 1 ∨ side value x i = -1 := by
  unfold side
  split_ifs
  · exact .inl rfl
  · exact .inr rfl

theorem sum_side (value : ℕ → K) (x : K) (window : Finset ℕ) :
    ∑ j ∈ window, side value x j =
      #{j ∈ window | x ≤ value j} - #{j ∈ window | ¬ x ≤ value j} := by
  simp only [side, sum_ite, sum_const, nsmul_eq_mul, mul_one, mul_neg]
  ring

variable [Field K]

/-- **A sequence near its medians**: every value is at the median of its window, or above it by up to
`jump`. -/
structure MedianRun (value : ℕ → K) (start : ℕ → ℕ) (size : ℕ) (jump : K) (last : ℕ) : Prop where
  windows : Windows start size last
  step : ∀ i, 0 < i → i ≤ last →
    ∃ m, IsMedian value (Ico (start i) i) m ∧ m ≤ value i ∧ value i ≤ m + jump

/-- **One position more**, with a window that begins no earlier. -/
theorem MedianRun.extend {value : ℕ → K} {start : ℕ → ℕ} {size last begin : ℕ} {jump m x : K}
    (h : MedianRun value start size jump last) (hmono : start last ≤ begin) (hlt : begin < last + 1)
    (hsize : last + 1 ≤ begin + size) (hm : IsMedian value (Ico begin (last + 1)) m) (hle : m ≤ x)
    (hjump : x ≤ m + jump) :
    MedianRun (Function.update value (last + 1) x) (Function.update start (last + 1) begin) size jump
      (last + 1) := by
  have hold : ∀ i, i ≤ last → Function.update start (last + 1) begin i = start i := fun i hi =>
    Function.update_of_ne (by omega) _ _
  have hvalue : ∀ i, i ≤ last → Function.update value (last + 1) x i = value i := fun i hi =>
    Function.update_of_ne (by omega) _ _
  refine ⟨⟨fun i j hij hj => ?_, fun i hi hil => ?_, fun i hi => ?_⟩, fun i hi hil => ?_⟩
  · rcases Nat.eq_or_lt_of_le hj with rfl | hj
    · rw [Function.update_self]
      rcases Nat.eq_or_lt_of_le hij with rfl | hij
      · rw [Function.update_self]
      · rw [hold i (by omega)]
        exact (h.windows.mono i last (by omega) le_rfl).trans hmono
    · rw [hold i (by omega), hold j (by omega)]
      exact h.windows.mono i j hij (by omega)
  · rcases Nat.eq_or_lt_of_le hil with rfl | hil
    · rwa [Function.update_self]
    · rw [hold i (by omega)]
      exact h.windows.lt i hi (by omega)
  · rcases Nat.eq_or_lt_of_le hi with rfl | hi
    · rwa [Function.update_self]
    · rw [hold i (by omega)]
      exact h.windows.le i (by omega)
  · rcases Nat.eq_or_lt_of_le hil with rfl | hil
    · rw [Function.update_self, Function.update_self]
      exact ⟨m, hm.congr fun j hj => hvalue j (Nat.lt_succ_iff.mp (mem_Ico.mp hj).2), hle, hjump⟩
    · rw [hold i (by omega), hvalue i (by omega)]
      obtain ⟨m', hm', hle', hjump'⟩ := h.step i hi (by omega)
      refine ⟨m', hm'.congr fun j hj => hvalue j ?_, hle', hjump'⟩
      have := (mem_Ico.mp hj).2
      omega

variable [IsStrictOrderedRing K]

/-- **With a gap below `x` the sides follow the majority.** -/
theorem IsMedian.majority {value : ℕ → K} {start : ℕ → ℕ} {i : ℕ} {m jump x : K}
    (h : IsMedian value (Ico (start i) i) m) (hle : m ≤ value i) (hjump : value i ≤ m + jump)
    (hgap : ∀ j ∈ Ico (start i) i, value j < x → value j < x - jump) :
    Majority (side value x) start i := by
  have hside : x ≤ value i ↔ x ≤ m := by
    refine ⟨fun hx => ?_, fun hx => hx.trans hle⟩
    by_contra hm
    obtain ⟨j, hj, rfl⟩ := h.mem
    have := hgap j hj (not_le.mp hm)
    linarith
  rw [Majority, sum_side, side]
  simp only [hside, h.le_iff x, sub_nonneg, Nat.cast_le]

variable [FloorRing K]

/-- **A gap between far values:** some interval of the length `jump` has no value of the positions. -/
theorem exists_gap (value : ℕ → K) (positions : Finset ℕ) {jump low high : K} (hjump : 0 < jump)
    (hfar : low + (positions.card + 2) * jump ≤ high) :
    ∃ x, low < x ∧ x ≤ high ∧ ∀ j ∈ positions, value j < x → value j < x - jump := by
  -- as many intervals as positions, and one more
  have hcard : #(positions.image fun j => ⌊(value j - low) / jump⌋) < #(Ico (1 : ℤ) (positions.card + 2)) := by
    rw [Int.card_Ico]
    exact card_image_le.trans_lt (by omega)
  obtain ⟨k, hk, hnot⟩ := exists_mem_notMem_of_card_lt_card hcard
  rw [mem_Ico] at hk
  have hk1 : (1 : K) ≤ k := by exact_mod_cast hk.1
  have hk2 : (k : K) + 1 ≤ positions.card + 2 := by exact_mod_cast hk.2
  refine ⟨low + (k + 1) * jump, ?_, ?_, fun j hj hlt => ?_⟩
  · nlinarith
  · nlinarith
  · by_contra hge
    refine hnot (mem_image.mpr ⟨j, hj, ?_⟩)
    rw [Int.floor_eq_iff, le_div_iff₀ hjump, div_lt_iff₀ hjump]
    constructor
    · linarith
    · linarith

/-- **The values of a window are near each other.** -/
theorem MedianRun.sub_lt {value : ℕ → K} {start : ℕ → ℕ} {size last : ℕ} {jump : K}
    (h : MedianRun value start size jump last) (hjump : 0 < jump) {i a b : ℕ} (hi : i ≤ last)
    (ha : a ∈ Ico (start i) i) (hb : b ∈ Ico (start i) i) :
    value a - value b < (size * size + 2 * size + 2) * jump := by
  by_contra hfar
  rw [not_lt] at hfar
  rw [mem_Ico] at ha hb
  have hwindow := h.windows.le i hi
  -- the positions that count
  set first := i - (size * size + 2 * size) with hfirst
  have hcard : ((#(Ico first i) : ℕ) : K) ≤ size * size + 2 * size := by
    rw [Nat.card_Ico]
    have : i - first ≤ size * size + 2 * size := by omega
    exact_mod_cast this
  have hroom : value b + (#(Ico first i) + 2) * jump ≤ value a := by nlinarith
  obtain ⟨x, hbx, hxa, hgap⟩ := exists_gap value (Ico first i) hjump hroom
  have hmajor : ∀ j, 0 < j → j ≤ i → i ≤ j + (size * size + size) → Majority (side value x) start j := by
    intro j hj hji hij
    obtain ⟨m, hm, hle, hup⟩ := h.step j hj (hji.trans hi)
    refine hm.majority hle hup fun k hk => hgap k ?_
    rw [mem_Ico] at hk ⊢
    have := h.windows.le j (hji.trans hi)
    omega
  have hsidea : side value x a = 1 := if_pos hxa
  have hsideb : side value x b = -1 := if_neg (not_le.mpr hbx)
  have hnone : ∀ q, i ≤ q + size → q ≤ i → ¬ Switch (side value x) q := fun q hq hqi =>
    not_switch h.windows (side_eq value x) (hqi.trans hi) fun j hj hjq hqj =>
      hmajor j hj (hjq.trans hqi) (by omega)
  rcases le_total a b with hab | hab
  · obtain ⟨q, hq, haq, hqb⟩ := exists_switch hab (show side value x a ≠ side value x b by omega)
    exact hnone q (by omega) (by omega) hq
  · obtain ⟨q, hq, haq, hqb⟩ := exists_switch hab (show side value x b ≠ side value x a by omega)
    exact hnone q (by omega) (by omega) hq

/-- A value is near the one before. -/
theorem MedianRun.abs_succ_sub_le {value : ℕ → K} {start : ℕ → ℕ} {size last : ℕ} {jump : K}
    (h : MedianRun value start size jump last) (hjump : 0 < jump) {i : ℕ} (hi : i + 1 ≤ last) :
    |value (i + 1) - value i| ≤ (size * size + 2 * size + 3) * jump := by
  obtain ⟨m, hm, hle, hup⟩ := h.step (i + 1) (Nat.succ_pos i) hi
  obtain ⟨j, hj, rfl⟩ := hm.mem
  have hlt := h.windows.lt (i + 1) (Nat.succ_pos i) hi
  have hmem : i ∈ Ico (start (i + 1)) (i + 1) := mem_Ico.mpr ⟨by omega, by omega⟩
  have h1 := h.sub_lt hjump hi hj hmem
  have h2 := h.sub_lt hjump hi hmem hj
  rw [abs_le]
  constructor
  · linarith
  · linarith

/-- **Values are as far apart as their positions**, up to a factor. -/
theorem MedianRun.abs_sub_le_mul {value : ℕ → K} {start : ℕ → ℕ} {size last : ℕ} {jump : K}
    (h : MedianRun value start size jump last) (hjump : 0 < jump) {i d : ℕ} (hi : i + d ≤ last) :
    |value (i + d) - value i| ≤ d * ((size * size + 2 * size + 3) * jump) := by
  induction d with
  | zero => simp
  | succ d ih =>
    have hnext := h.abs_succ_sub_le hjump (i := i + d) (by omega)
    have hbefore := ih (by omega)
    calc |value (i + (d + 1)) - value i|
        ≤ |value (i + d + 1) - value (i + d)| + |value (i + d) - value i| := abs_sub_le _ _ _
      _ ≤ (size * size + 2 * size + 3) * jump + d * ((size * size + 2 * size + 3) * jump) := by
          gcongr
      _ = (d + 1 : ℕ) * ((size * size + 2 * size + 3) * jump) := by
          push_cast
          ring

end Values
