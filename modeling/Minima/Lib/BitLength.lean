import Minima.Lib.BigEndian

/-! # Bit lengths: quotients, logarithms and shifted byte strings

The number of bits of a quotient can be told from the numbers of bits of the two sides and one comparison,
without a division.

* **`size_div`** — the bits of `m / n`, from one comparison of `m` with `n` shifted to its length.
* **`max_floor_logb_div`** — they are the logarithm to base two of the exact quotient, rounded down.
* **`ofBytesBE_shiftBytes`** — shifting a string by less than a byte, with a carry from byte to byte. -/

namespace BitLength

open BigEndian TwosComplement

/-! ## Bits of a natural number -/

/-- The bits are told by the powers of two around the number. -/
theorem size_eq_of_pow_le {k n : ℕ} (hle : 2 ^ k ≤ n) (hlt : n < 2 ^ (k + 1)) : n.size = k + 1 :=
  le_antisymm (Nat.size_le.mpr hlt) (Nat.lt_size.mpr hle)

/-- The logarithm is one less than the number of bits. -/
theorem log2_eq_size_sub_one (n : ℕ) : n.log2 = n.size - 1 := by
  by_cases h : n = 0
  · rw [h]
    rfl
  · rw [size_eq_of_pow_le (Nat.log2_self_le h) Nat.lt_log2_self, Nat.add_sub_cancel]

/-- **The bits of a quotient.** -/
theorem size_div {m n : ℕ} (hn : n ≠ 0) (h : n.size ≤ m.size) :
    (m / n).size = if m < n * 2 ^ (m.size - n.size) then m.size - n.size else m.size - n.size + 1 := by
  have hpos : 0 < n := Nat.pos_of_ne_zero hn
  have hnsize : 0 < n.size := Nat.size_pos.mpr hpos
  have hn_lt : n < 2 ^ n.size := Nat.lt_size_self n
  have hn_le : 2 ^ (n.size - 1) ≤ n := Nat.lt_size.mp (by omega)
  have hm_lt : m < 2 ^ m.size := Nat.lt_size_self m
  have hm_le : 2 ^ (m.size - 1) ≤ m := Nat.lt_size.mp (by omega)
  obtain ⟨s, hs⟩ := Nat.exists_eq_add_of_le h
  have hsub : m.size - n.size = s := by omega
  rw [hsub]
  split_ifs with hcmp
  · refine le_antisymm (Nat.size_le.mpr ?_) ?_
    · rwa [Nat.div_lt_iff_lt_mul hpos, mul_comm]
    · -- half of the shifted divisor is still below the dividend
      cases s with
      | zero => exact Nat.zero_le _
      | succ s =>
        refine Nat.lt_size.mpr ((Nat.le_div_iff_mul_le hpos).mpr ?_)
        calc 2 ^ s * n ≤ 2 ^ s * 2 ^ n.size := Nat.mul_le_mul_left _ hn_lt.le
          _ = 2 ^ (m.size - 1) := by
            rw [← pow_add]
            congr 1
            omega
          _ ≤ m := hm_le
  · refine size_eq_of_pow_le ?_ ?_
    · rw [Nat.le_div_iff_mul_le hpos, mul_comm]
      exact not_lt.mp hcmp
    · rw [Nat.div_lt_iff_lt_mul hpos]
      calc m < 2 ^ m.size := hm_lt
        _ = 2 ^ (s + 1) * 2 ^ (n.size - 1) := by
          rw [← pow_add]
          congr 1
          omega
        _ ≤ 2 ^ (s + 1) * n := Nat.mul_le_mul_left _ hn_le

theorem div_eq_zero_of_size_lt {m n : ℕ} (h : m.size < n.size) : m / n = 0 := by
  refine Nat.div_eq_of_lt (lt_of_not_ge fun hle => ?_)
  exact absurd (Nat.size_le_size hle) (not_le.mpr h)

/-- **The logarithm of the exact quotient**, rounded down and not below zero, is that of the whole quotient. -/
theorem max_floor_logb_div (m n : ℕ) : max 0 ⌊Real.logb 2 ((m : ℝ) / n)⌋ = ((m / n).log2 : ℤ) := by
  have hfloor : ⌊(m : ℝ) / n⌋₊ = m / n := Nat.floor_div_eq_div m n
  have hlog : ⌊Real.logb 2 ((m : ℝ) / n)⌋ = Int.log 2 ((m : ℝ) / n) := by
    have h := @Real.floor_logb_natCast 2 ((m : ℝ) / n) (by positivity)
    simpa using h
  rw [hlog]
  rcases le_or_gt 1 ((m : ℝ) / n) with hle | hlt
  · rw [Int.log_of_one_le_right 2 hle, hfloor, Nat.log2_eq_log_two]
    exact max_eq_right (Int.natCast_nonneg _)
  · rw [Int.log_of_right_le_one 2 hlt.le]
    have hzero : m / n = 0 := by
      rw [← hfloor]
      exact Nat.floor_eq_zero.mpr hlt
    rw [hzero]
    exact max_eq_left (by simp)

/-! ## Byte strings -/

/-- The bits of a string are those of its first byte and of the bytes behind it. -/
theorem size_ofBytesBE_cons {b : UInt8} (h : b ≠ 0) (bs : List UInt8) :
    (ofBytesBE (b :: bs)).size = bs.length * 8 + b.toNat.size := by
  have hb : 0 < b.toNat := by
    rw [Nat.pos_iff_ne_zero, ne_eq, ← UInt8.toNat_zero, UInt8.toNat_inj]
    exact h
  have hpow : 256 ^ bs.length = 2 ^ (bs.length * 8) := by
    rw [mul_comm, pow_mul]
    norm_num
  have hrest : ofBytesBE bs < 2 ^ (bs.length * 8) := hpow ▸ ofBytesBE_lt bs
  obtain ⟨k, hk⟩ : ∃ k, b.toNat.size = k + 1 := ⟨b.toNat.size - 1, by have := Nat.size_pos.mpr hb; omega⟩
  have hle : 2 ^ k ≤ b.toNat := Nat.lt_size.mp (by omega)
  have hlt : b.toNat < 2 ^ (k + 1) := hk ▸ Nat.lt_size_self _
  rw [ofBytesBE_cons, hpow, hk, ← add_assoc]
  refine size_eq_of_pow_le ?_ ?_
  · calc 2 ^ (bs.length * 8 + k) = 2 ^ k * 2 ^ (bs.length * 8) := by rw [add_comm, pow_add]
      _ ≤ b.toNat * 2 ^ (bs.length * 8) := Nat.mul_le_mul_right _ hle
      _ ≤ _ := Nat.le_add_right _ _
  · calc b.toNat * 2 ^ (bs.length * 8) + ofBytesBE bs
        < (b.toNat + 1) * 2 ^ (bs.length * 8) := by
          rw [add_mul, one_mul]
          exact Nat.add_lt_add_left hrest _
      _ ≤ 2 ^ (k + 1) * 2 ^ (bs.length * 8) := Nat.mul_le_mul_right _ hlt
      _ = 2 ^ (bs.length * 8 + k + 1) := by
        rw [← pow_add]
        congr 1
        omega

theorem ofBytesBE_append_zeros (bs : List UInt8) (n : ℕ) :
    ofBytesBE (bs ++ List.replicate n 0) = ofBytesBE bs * 2 ^ (8 * n) := by
  have hpow : ∀ k : ℕ, 256 ^ k = 2 ^ (8 * k) := fun k => by
    rw [pow_mul]
    norm_num
  induction bs with
  | nil =>
    have hzero := ofBytesBE_replicate_append n []
    rw [List.append_nil] at hzero
    rw [List.nil_append, hzero, ofBytesBE_nil, Nat.zero_mul]
  | cons b bs ih =>
    rw [List.cons_append, ofBytesBE_cons, ofBytesBE_cons, ih, List.length_append, List.length_replicate,
      pow_add, hpow n]
    ring

/-- A string shifted to the left by `s < 8` bits, from the last byte on, and the carry in front of it. -/
def shiftBytes (s : ℕ) : List UInt8 → List UInt8 × UInt8
  | [] => ([], 0)
  | b :: bs =>
    ((UInt8.ofNat ((b.toNat <<< s) &&& 0xFF) ||| (shiftBytes s bs).2) :: (shiftBytes s bs).1,
      UInt8.ofNat ((b.toNat >>> (8 - s)) &&& ((1 <<< s) - 1)))

/-- What is shifted out of a byte is less than the weight of the shift. -/
theorem carry_lt {s : ℕ} (hs : s < 8) (bs : List UInt8) : (shiftBytes s bs).2.toNat < 2 ^ s := by
  cases bs with
  | nil => exact Nat.two_pow_pos s
  | cons b bs =>
    have hlt : (b.toNat >>> (8 - s)) &&& ((1 <<< s) - 1) < 2 ^ s := by
      rw [Nat.one_shiftLeft, Nat.and_two_pow_sub_one_eq_mod]
      exact Nat.mod_lt _ (Nat.two_pow_pos s)
    have hpow : 2 ^ s ≤ 2 ^ 8 := Nat.pow_le_pow_right (by norm_num) hs.le
    show (UInt8.ofNat _).toNat < 2 ^ s
    rw [UInt8.toNat_ofNat', Nat.mod_eq_of_lt (by omega)]
    exact hlt

/-- One byte: what stays in it and what is carried are the byte shifted. -/
theorem shift_byte {s : ℕ} (hs : s < 8) (b c : UInt8) (hc : c.toNat < 2 ^ s) :
    (UInt8.ofNat ((b.toNat >>> (8 - s)) &&& ((1 <<< s) - 1))).toNat * 256 +
        (UInt8.ofNat ((b.toNat <<< s) &&& 0xFF) ||| c).toNat = b.toNat * 2 ^ s + c.toNat := by
  have hb : b.toNat < 256 := b.toNat_lt
  have hpow : 2 ^ (8 - s) * 2 ^ s = 256 := by
    rw [← pow_add, Nat.sub_add_cancel hs.le]
    norm_num
  have hlow : (b.toNat <<< s) &&& 0xFF = b.toNat % 2 ^ (8 - s) * 2 ^ s := by
    rw [show (0xFF : ℕ) = 2 ^ 8 - 1 by norm_num, Nat.and_two_pow_sub_one_eq_mod, Nat.shiftLeft_eq,
      show (2 : ℕ) ^ 8 = 2 ^ (8 - s) * 2 ^ s by rw [hpow]; norm_num, Nat.mul_mod_mul_right]
  have hlow_lt : b.toNat % 2 ^ (8 - s) * 2 ^ s < 256 := by
    rw [← hpow]
    exact Nat.mul_lt_mul_of_pos_right (Nat.mod_lt _ (Nat.two_pow_pos _)) (Nat.two_pow_pos s)
  have hhigh : (b.toNat >>> (8 - s)) &&& ((1 <<< s) - 1) = b.toNat / 2 ^ (8 - s) := by
    rw [Nat.one_shiftLeft, Nat.and_two_pow_sub_one_eq_mod, Nat.shiftRight_eq_div_pow, Nat.mod_eq_of_lt]
    rw [Nat.div_lt_iff_lt_mul (Nat.two_pow_pos _), mul_comm, hpow]
    exact hb
  have hhigh_lt : b.toNat / 2 ^ (8 - s) < 256 := (Nat.div_le_self _ _).trans_lt hb
  rw [UInt8.toNat_or, UInt8.toNat_ofNat', UInt8.toNat_ofNat', hlow, hhigh, Nat.mod_eq_of_lt hlow_lt,
    Nat.mod_eq_of_lt hhigh_lt, mul_comm (b.toNat % 2 ^ (8 - s)), ← Nat.two_pow_add_eq_or_of_lt hc, ← add_assoc]
  congr 1
  calc b.toNat / 2 ^ (8 - s) * 256 + 2 ^ s * (b.toNat % 2 ^ (8 - s))
      = (2 ^ (8 - s) * (b.toNat / 2 ^ (8 - s)) + b.toNat % 2 ^ (8 - s)) * 2 ^ s := by
        rw [← hpow]
        ring
    _ = b.toNat * 2 ^ s := by rw [Nat.div_add_mod]

@[simp] theorem length_shiftBytes (s : ℕ) (bs : List UInt8) : (shiftBytes s bs).1.length = bs.length := by
  induction bs with
  | nil => rfl
  | cons b bs ih => simp [shiftBytes, ih]

/-- **The value of a shifted string**, with its carry in front. -/
theorem ofBytesBE_shiftBytes {s : ℕ} (hs : s < 8) (bs : List UInt8) :
    ofBytesBE ((shiftBytes s bs).2 :: (shiftBytes s bs).1) = ofBytesBE bs * 2 ^ s := by
  induction bs with
  | nil => simp [shiftBytes]
  | cons b bs ih =>
    have hbyte := shift_byte hs b (shiftBytes s bs).2 (carry_lt hs bs)
    rw [ofBytesBE_cons, length_shiftBytes] at ih
    rw [ofBytesBE_cons, length_shiftBytes, List.length_cons, shiftBytes, ofBytesBE_cons, length_shiftBytes,
      ofBytesBE_cons, ← add_assoc, pow_succ, mul_comm (256 ^ bs.length), ← mul_assoc, ← add_mul, hbyte,
      add_mul, add_mul, add_assoc, ih]
    ring

end BitLength
