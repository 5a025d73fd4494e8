import Mathlib

/-! # Mountain ranges: labelled perfect trees over the first `n` leaves

A mountain range over `n` leaves has, in row `r`, the nodes `0, …, n / 2^r − 1`; node `k` of row
`r + 1` stands over nodes `2k` and `2k + 1` of row `r`. A node without a parent is a peak; there is
one in each row whose bit is set in `n`.

* **`Complete n r k`** — the node exists; **`IsPeak n r k`** — it has no parent.
* **`Labelling J n f`** — the labels `f` of the nodes are joined by the relation `J`.
* **`Labelling.unique`** — where `J` is a function, the leaves determine all labels.
* **`ancestor_succ`**, **`sibling_complete`** — walking from a leaf to its peak. -/

namespace MountainRange

/-- Node `k` of row `r` exists over `n` leaves. -/
def Complete (n r k : ℕ) : Prop := k < n / 2 ^ r

instance (n r k : ℕ) : Decidable (Complete n r k) := inferInstanceAs (Decidable (_ < _))

/-- Node `k` of row `r` is the last node of its row and has no sibling. -/
def IsPeak (n r k : ℕ) : Prop := n / 2 ^ r % 2 = 1 ∧ k + 1 = n / 2 ^ r

instance (n r k : ℕ) : Decidable (IsPeak n r k) := inferInstanceAs (Decidable (_ ∧ _))

/-- The sibling of node `k`. -/
def sibling (k : ℕ) : ℕ := if k % 2 = 0 then k + 1 else k - 1

theorem div_pow_succ (n r : ℕ) : n / 2 ^ (r + 1) = n / 2 ^ r / 2 := by
  rw [pow_succ, Nat.div_div_eq_div_mul]

theorem testBit_iff (n r : ℕ) : n.testBit r = true ↔ n / 2 ^ r % 2 = 1 := by
  rw [Nat.testBit_eq_decide_div_mod_eq, decide_eq_true_eq]

theorem sibling_div_two (k : ℕ) : sibling k / 2 = k / 2 := by
  unfold sibling
  split <;> omega

theorem sibling_ne (k : ℕ) : sibling k ≠ k := by
  unfold sibling
  split <;> omega

theorem sibling_sibling (k : ℕ) : sibling (sibling k) = k := by
  unfold sibling
  split_ifs <;> omega

/-- The two nodes under `k / 2` are `k` and its sibling. -/
theorem pair_of_even {k : ℕ} (h : k % 2 = 0) : 2 * (k / 2) = k ∧ 2 * (k / 2) + 1 = sibling k := by
  simp only [sibling, h, if_true]
  omega

theorem pair_of_odd {k : ℕ} (h : ¬ k % 2 = 0) : 2 * (k / 2) = sibling k ∧ 2 * (k / 2) + 1 = k := by
  simp only [sibling, h, if_false]
  omega

theorem IsPeak.complete {n r k : ℕ} (h : IsPeak n r k) : Complete n r k := by
  unfold Complete
  have := h.2
  omega

/-- In a row whose bit is set, the last node is a peak. -/
theorem isPeak_last {n r : ℕ} (h : n / 2 ^ r % 2 = 1) : IsPeak n r (n / 2 ^ r - 1) := by
  refine ⟨h, ?_⟩
  generalize n / 2 ^ r = q at h
  omega

theorem IsPeak.eq_last {n r k : ℕ} (h : IsPeak n r k) : k = n / 2 ^ r - 1 := by
  have := h.2
  omega

/-- A peak is a left node. -/
theorem IsPeak.even {n r k : ℕ} (h : IsPeak n r k) : k % 2 = 0 := by
  obtain ⟨h1, h2⟩ := h
  rw [← h2] at h1
  omega

/-- A complete node that is not a peak has a complete sibling. -/
theorem sibling_complete {n r k : ℕ} (h : Complete n r k) (hp : ¬ IsPeak n r k) :
    Complete n r (sibling k) := by
  unfold Complete IsPeak at *
  unfold sibling
  split <;> omega

/-- A complete node that is not a peak has a complete parent. -/
theorem parent_complete {n r k : ℕ} (h : Complete n r k) (hp : ¬ IsPeak n r k) :
    Complete n (r + 1) (k / 2) := by
  unfold Complete IsPeak at *
  rw [div_pow_succ]
  omega

/-- The children of a complete node are complete. -/
theorem complete_children {n r k : ℕ} (h : Complete n (r + 1) k) :
    Complete n r (2 * k) ∧ Complete n r (2 * k + 1) := by
  unfold Complete at *
  rw [div_pow_succ] at h
  omega

theorem Complete.mono {m n r k : ℕ} (h : Complete m r k) (hmn : m ≤ n) : Complete n r k :=
  lt_of_lt_of_le h (Nat.div_le_div_right hmn)

/-- A complete node lies below row `b` when there are fewer than `2^b` leaves. -/
theorem Complete.row_lt {n r k b : ℕ} (h : Complete n r k) (hn : n < 2 ^ b) : r < b := by
  by_contra hle
  have h0 : n / 2 ^ r = 0 :=
    Nat.div_eq_of_lt (lt_of_lt_of_le hn (Nat.pow_le_pow_right (by norm_num) (not_lt.mp hle)))
  unfold Complete at h
  omega

theorem complete_zero {n k : ℕ} : Complete n 0 k ↔ k < n := by simp [Complete]

/-- The node of row `r` above leaf `e` is its own grandparent step: `(e / 2^r) / 2`. -/
theorem ancestor_succ (e r : ℕ) : e / 2 ^ r / 2 = e / 2 ^ (r + 1) := (div_pow_succ e r).symm

/-- Below a complete ancestor of a leaf, its ancestors and their siblings are complete. -/
theorem path_complete {n e i : ℕ} (h : Complete n i (e / 2 ^ i)) :
    ∀ j < i, Complete n j (e / 2 ^ j) ∧ Complete n j (sibling (e / 2 ^ j)) := by
  induction i with
  | zero => exact fun j hj => absurd hj (Nat.not_lt_zero j)
  | succ i ih =>
    have hpair : Complete n i (e / 2 ^ i) ∧ Complete n i (sibling (e / 2 ^ i)) := by
      rw [← ancestor_succ] at h
      obtain ⟨hl, hr⟩ := complete_children h
      by_cases heven : e / 2 ^ i % 2 = 0
      · obtain ⟨h1, h2⟩ := pair_of_even heven
        exact ⟨h1 ▸ hl, h2 ▸ hr⟩
      · obtain ⟨h1, h2⟩ := pair_of_odd heven
        exact ⟨h2 ▸ hr, h1 ▸ hl⟩
    intro j hj
    rcases Nat.lt_succ_iff_lt_or_eq.mp hj with hlt | rfl
    · exact ih hpair.1 j hlt
    · exact hpair

/-- The peak over a leaf: the lowest row in which its ancestor is a peak. -/
theorem exists_peak {n e : ℕ} (he : e < n) : ∃ r, IsPeak n r (e / 2 ^ r) := by
  by_contra hno
  push Not at hno
  have hall : ∀ r, Complete n r (e / 2 ^ r) := by
    intro r
    induction r with
    | zero => simpa [Complete] using he
    | succ r ih =>
      rw [← ancestor_succ]
      exact parent_complete ih (hno r)
  have hbig := hall n
  unfold Complete at hbig
  rw [Nat.div_eq_of_lt (Nat.lt_two_pow_self : n < 2 ^ n)] at hbig
  exact Nat.not_lt_zero _ hbig

/-- At most every other number up to `n` is a bit of it. -/
theorem length_bitIndices_le_half (n : ℕ) : n.bitIndices.length ≤ (n + 1) / 2 := by
  induction n using Nat.binaryRec' with
  | zero => simp
  | bit b n _ ih =>
      cases b with
      | false =>
          rw [Nat.bitIndices_bit_false, List.length_map, Nat.bit_val]
          simp only [Bool.toNat_false]
          omega
      | true =>
          rw [Nat.bitIndices_bit_true, List.length_cons, List.length_map, Nat.bit_val]
          simp only [Bool.toNat_true]
          omega

/-- Fewer bits than leaves, once there are two leaves. -/
theorem length_bitIndices_lt {n : ℕ} (h : 2 ≤ n) : n.bitIndices.length < n := by
  have hle := length_bitIndices_le_half n
  omega

theorem length_bitIndices_le (n : ℕ) : n.bitIndices.length ≤ n := by
  have hle := length_bitIndices_le_half n
  omega

/-! ## Labels -/

variable {A : Type*}

/-- Labels of the complete nodes, joined upwards by `J`. -/
def Labelling (J : A → A → A → Prop) (n : ℕ) (f : ℕ → ℕ → A) : Prop :=
  ∀ r k, Complete n (r + 1) k → J (f r (2 * k)) (f r (2 * k + 1)) (f (r + 1) k)

/-- Change the label of one node. -/
def relabel (f : ℕ → ℕ → A) (r k : ℕ) (a : A) : ℕ → ℕ → A := fun r' k' =>
  if r' = r ∧ k' = k then a else f r' k'

@[simp] theorem relabel_same (f : ℕ → ℕ → A) (r k : ℕ) (a : A) : relabel f r k a r k = a := by
  simp [relabel]

theorem relabel_of_ne (f : ℕ → ℕ → A) {r k r' k' : ℕ} (a : A) (h : ¬ (r' = r ∧ k' = k)) :
    relabel f r k a r' k' = f r' k' := by
  simp [relabel, h]

/-- Relabelling a node with its own label changes nothing. -/
theorem relabel_self (f : ℕ → ℕ → A) (r k : ℕ) : relabel f r k (f r k) = f := by
  funext r' k'
  unfold relabel
  split_ifs with h
  · rw [h.1, h.2]
  · rfl

/-- **The leaves determine the labels** when joining is a function. -/
theorem Labelling.unique {J : A → A → A → Prop} (hJ : ∀ a b c d, J a b c → J a b d → c = d)
    {n : ℕ} {f g : ℕ → ℕ → A} (hf : Labelling J n f) (hg : Labelling J n g)
    (h0 : ∀ k < n, f 0 k = g 0 k) : ∀ r k, Complete n r k → f r k = g r k := by
  intro r
  induction r with
  | zero =>
    intro k hk
    exact h0 k (complete_zero.mp hk)
  | succ r ih =>
    intro k hk
    obtain ⟨hl, hr⟩ := complete_children hk
    have h1 := hf r k hk
    have h2 := hg r k hk
    rw [ih _ hl, ih _ hr] at h1
    exact hJ _ _ _ _ h1 h2

end MountainRange
