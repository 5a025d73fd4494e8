import Mathlib

/-! # Digit vectors with a checksum

A one-time signature over hash chains reveals, for every digit of the message, how far its chain was
walked. Whoever sees it can walk every chain further, so a digit can be raised. A checksum of the
digits, which falls when they rise, is signed along with them.

* **`lowDigits b n c`** — the `n` low digits of `c` to base `b`, the lowest first.
* **`withChecksum b n K xs`** — the digits `xs`, and the digits of `K` minus their sum.
* **`exists_lt_of_ne`** — of two different vectors of one length, either falls somewhere. -/

namespace Checksum

/-! ## Pointwise order -/

theorem sum_le_of_forall₂ {xs ys : List ℕ} (h : List.Forall₂ (· ≤ ·) xs ys) : xs.sum ≤ ys.sum := by
  induction h with
  | nil => exact le_rfl
  | cons hxy _ ih =>
      rw [List.sum_cons, List.sum_cons]
      exact Nat.add_le_add hxy ih

/-- A vector that is nowhere larger and sums to as much is the same vector. -/
theorem eq_of_forall₂_of_sum_le {xs ys : List ℕ} (h : List.Forall₂ (· ≤ ·) xs ys)
    (hsum : ys.sum ≤ xs.sum) : xs = ys := by
  induction h with
  | nil => rfl
  | @cons x y xs ys hxy hrest ih =>
      have hle := sum_le_of_forall₂ hrest
      rw [List.sum_cons, List.sum_cons] at hsum
      rw [ih (by omega), show x = y by omega]

/-- Two vectors of one length: one falls somewhere, or is nowhere larger. -/
theorem forall₂_or_exists_lt {xs ys : List ℕ} (h : xs.length = ys.length) :
    List.Forall₂ (· ≤ ·) xs ys ∨ ∃ (i x y : ℕ), xs[i]? = some x ∧ ys[i]? = some y ∧ y < x := by
  by_cases hle : List.Forall₂ (· ≤ ·) xs ys
  · exact .inl hle
  · right
    rw [List.forall₂_iff_get] at hle
    push Not at hle
    obtain ⟨i, hx, hy, hlt⟩ := hle h
    exact ⟨i, xs.get ⟨i, hx⟩, ys.get ⟨i, hy⟩, List.getElem?_eq_getElem hx,
      List.getElem?_eq_getElem hy, hlt⟩

/-! ## Digits of a number -/

/-- The `n` low digits of `c` to base `b`, the lowest first. -/
def lowDigits (b : ℕ) : ℕ → ℕ → List ℕ
  | 0, _ => []
  | n + 1, c => c % b :: lowDigits b n (c / b)

@[simp] theorem length_lowDigits (b n c : ℕ) : (lowDigits b n c).length = n := by
  induction n generalizing c with
  | zero => rfl
  | succ n ih => rw [lowDigits, List.length_cons, ih]

theorem lt_of_mem_lowDigits {b n c d : ℕ} (hb : 0 < b) (h : d ∈ lowDigits b n c) : d < b := by
  induction n generalizing c with
  | zero => cases h
  | succ n ih =>
      rcases List.mem_cons.mp h with rfl | h
      · exact Nat.mod_lt _ hb
      · exact ih h

/-- **The digits are ordered consistently with the number**, up to carries: a number whose digits are
nowhere larger is not larger. -/
theorem le_of_lowDigits_le {b n c c' : ℕ} (hc : c < b ^ n)
    (h : List.Forall₂ (· ≤ ·) (lowDigits b n c) (lowDigits b n c')) : c ≤ c' := by
  induction n generalizing c c' with
  | zero =>
      rw [pow_zero] at hc
      omega
  | succ n ih =>
      rw [lowDigits, lowDigits, List.forall₂_cons] at h
      have hhigh : c / b ≤ c' / b := by
        apply ih _ h.2
        apply Nat.div_lt_of_lt_mul
        rwa [← pow_succ']
      calc c = b * (c / b) + c % b := (Nat.div_add_mod c b).symm
        _ ≤ b * (c' / b) + c' % b := Nat.add_le_add (Nat.mul_le_mul_left b hhigh) h.1
        _ = c' := Nat.div_add_mod c' b

/-! ## The checksum -/

/-- **The digits and their checksum**, `n` digits of `K` minus their sum. -/
def withChecksum (b n K : ℕ) (xs : List ℕ) : List ℕ := xs ++ lowDigits b n (K - xs.sum)

@[simp] theorem length_withChecksum (b n K : ℕ) (xs : List ℕ) :
    (withChecksum b n K xs).length = xs.length + n := by
  rw [withChecksum, List.length_append, length_lowDigits]

/-- A vector that is nowhere larger than another, checksum included, is the same. -/
theorem eq_of_withChecksum_le {b n K : ℕ} {xs ys : List ℕ} (hlen : xs.length = ys.length)
    (hK : K < b ^ n) (hys : ys.sum ≤ K)
    (h : List.Forall₂ (· ≤ ·) (withChecksum b n K xs) (withChecksum b n K ys)) : xs = ys := by
  have hmsg : List.Forall₂ (· ≤ ·) xs ys := by
    have htake := List.forall₂_take xs.length h
    rwa [withChecksum, withChecksum, List.take_left' rfl, List.take_left' hlen.symm] at htake
  have hsum : List.Forall₂ (· ≤ ·) (lowDigits b n (K - xs.sum)) (lowDigits b n (K - ys.sum)) := by
    have hdrop := List.forall₂_drop xs.length h
    rwa [withChecksum, withChecksum, List.drop_left' rfl, List.drop_left' hlen.symm] at hdrop
  -- the message digits rise, so the checksum falls, and its digits say that it does not
  apply eq_of_forall₂_of_sum_le hmsg
  have hle := le_of_lowDigits_le (by omega) hsum
  have hmono := sum_le_of_forall₂ hmsg
  omega

/-- **Different vectors, checksum included, each fall somewhere.** -/
theorem exists_lt_of_ne {b n K : ℕ} {xs ys : List ℕ} (hlen : xs.length = ys.length) (hK : K < b ^ n)
    (hys : ys.sum ≤ K) (hne : xs ≠ ys) :
    ∃ (i x y : ℕ), (withChecksum b n K xs)[i]? = some x ∧ (withChecksum b n K ys)[i]? = some y ∧ y < x := by
  have hlen' : (withChecksum b n K xs).length = (withChecksum b n K ys).length := by
    rw [length_withChecksum, length_withChecksum, hlen]
  rcases forall₂_or_exists_lt hlen' with h | h
  · exact absurd (eq_of_withChecksum_le hlen hK hys h) hne
  · exact h

end Checksum
