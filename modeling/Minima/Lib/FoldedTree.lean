import Minima.Lib.MountainRange

/-! # The leaves under a label

A label that was joined from others, which it determines, in any shape, determines the list of leaves that
it was joined from. The peaks of a mountain range, one after the other, are joined from all leaves.

* **`Folds`** — the leaves under a label. **`Folds.unique`** — there is one list.
* **`folds_node`** — the leaves under a node of a range.
* **`flatMap_peaks`** — those under the peaks are all leaves, in order. -/

namespace MountainRange

variable {A : Type*} {J : A → A → A → Prop}

/-- **A label was joined from a list of leaves**, in their order, in some shape, and from no others. -/
inductive Folds (J : A → A → A → Prop) : List A → A → Prop
  | leaf {a : A} (h : ∀ x y, ¬ J x y a) : Folds J [a] a
  | join {xs ys : List A} {a b c : A} (ha : Folds J xs a) (hb : Folds J ys b) (joined : J a b c)
    (only : ∀ x y, J x y c → x = a ∧ y = b) : Folds J (xs ++ ys) c

/-- **The label determines the leaves.** -/
theorem Folds.unique {xs ys : List A} {top : A} (h : Folds J xs top) (h' : Folds J ys top) : xs = ys := by
  induction h generalizing ys with
  | leaf hleaf =>
    cases h' with
    | leaf _ => rfl
    | join _ _ joined _ => exact absurd joined (hleaf _ _)
  | join _ _ joined only iha ihb =>
    cases h' with
    | leaf hleaf => exact absurd joined (hleaf _ _)
    | join ha' hb' joined' _ =>
      obtain ⟨rfl, rfl⟩ := only _ _ joined'
      rw [iha ha', ihb hb']

/-- **The leaves under a node**, where each leaf of the range was itself joined from a list. -/
theorem folds_node {n : ℕ} {f : ℕ → ℕ → A} (hf : Labelling J n f)
    (only : ∀ r k, Complete n (r + 1) k → ∀ x y, J x y (f (r + 1) k) →
      x = f r (2 * k) ∧ y = f r (2 * k + 1)) {ls : ℕ → List A} (hleaf : ∀ k < n, Folds J (ls k) (f 0 k))
    {r : ℕ} : ∀ {k : ℕ}, Complete n r k → Folds J ((List.range' (k * 2 ^ r) (2 ^ r)).flatMap ls) (f r k) := by
  induction r with
  | zero =>
    intro k hk
    simpa using hleaf k (complete_zero.mp hk)
  | succ r ih =>
    intro k hk
    obtain ⟨hl, hr⟩ := complete_children hk
    have hsplit : List.range' (k * 2 ^ (r + 1)) (2 ^ (r + 1)) =
        List.range' (2 * k * 2 ^ r) (2 ^ r) ++ List.range' ((2 * k + 1) * 2 ^ r) (2 ^ r) := by
      rw [show k * 2 ^ (r + 1) = 2 * k * 2 ^ r by ring,
        show (2 * k + 1) * 2 ^ r = 2 * k * 2 ^ r + 2 ^ r by ring, List.range'_append_1]
      congr 1
      ring
    rw [hsplit, List.flatMap_append]
    exact .join (ih hl) (ih hr) (hf r k hk) (only r k hk)

/-- Twice as many numbers, two at a time. -/
theorem range'_double (a m : ℕ) :
    List.range' (2 * a) (2 * m) = (List.range' a m).flatMap fun k => [2 * k, 2 * k + 1] := by
  induction m generalizing a with
  | zero => rfl
  | succ m ih =>
    rw [show 2 * (m + 1) = 2 * m + 1 + 1 by ring, List.range'_succ, List.range'_succ, List.range'_succ,
      List.flatMap_cons, ← ih (a + 1)]
    rfl

/-- **The peaks span all leaves**, the highest peak first. -/
theorem flatMap_peaks (n : ℕ) :
    (n.bitIndices.reverse.flatMap fun r => List.range' ((n / 2 ^ r - 1) * 2 ^ r) (2 ^ r)) = List.range n := by
  induction n using Nat.binaryRec with
  | zero => simp
  | bit b n ih =>
    -- above the lowest bit, two leaves at a time
    have hrow : ∀ m : ℕ, m / 2 = n → ∀ r, List.range' ((m / 2 ^ (r + 1) - 1) * 2 ^ (r + 1)) (2 ^ (r + 1)) =
        (List.range' ((n / 2 ^ r - 1) * 2 ^ r) (2 ^ r)).flatMap fun k => [2 * k, 2 * k + 1] := by
      intro m hm r
      have hdiv : m / 2 ^ (r + 1) = n / 2 ^ r := by rw [pow_succ', ← Nat.div_div_eq_div_mul, hm]
      rw [hdiv, pow_succ', ← range'_double]
      congr 1
      ring
    have hpairs : (List.range n).flatMap (fun k => [2 * k, 2 * k + 1]) = List.range (2 * n) := by
      rw [List.range_eq_range', List.range_eq_range', ← range'_double]
    have hupper : ∀ m : ℕ, m / 2 = n → ((n.bitIndices.map (· + 1)).reverse.flatMap fun r =>
        List.range' ((m / 2 ^ r - 1) * 2 ^ r) (2 ^ r)) = List.range (2 * n) := by
      intro m hm
      rw [← List.map_reverse, List.flatMap_map]
      simp only [hrow m hm]
      rw [← List.flatMap_assoc, ih, hpairs]
    cases b with
    | false =>
      rw [Nat.bitIndices_bit_false, Nat.bit_val]
      exact hupper (2 * n) (by omega)
    | true =>
      rw [Nat.bitIndices_bit_true, Nat.bit_val, List.reverse_cons, List.flatMap_append,
        hupper _ (by simp only [Bool.toNat_true]; omega)]
      simp [List.range_succ]

end MountainRange
