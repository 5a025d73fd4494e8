import Minima.Lib.TwosComplement

/-! # Byte strings as big-endian integers

What the order and the bitwise operations of unsigned integers are on the bytes that stand for them.

* **`cmpMagnitude`** — the longer string is the larger one, and among strings of a length the first difference
  counts. On strings without leading zeros this is the order of the integers (`cmpMagnitude_eq_sign`).
* **`ofBytesBE_zipWith`** — a bitwise operation on strings of one length works byte by byte.
* **`ofBytesBE_map_complement`** — the complement over the bytes of the string. -/

namespace BigEndian

open TwosComplement

/-! ## Leading zeros -/

/-- The bytes from the first one on that is not zero. -/
def trim (bs : List UInt8) : List UInt8 := bs.dropWhile fun b => b == 0

@[simp] theorem ofBytesBE_nil : ofBytesBE [] = 0 := rfl

@[simp] theorem trim_nil : trim [] = [] := rfl

theorem trim_zero_cons (bs : List UInt8) : trim (0 :: bs) = trim bs := rfl

theorem trim_cons {b : UInt8} (h : b ≠ 0) (bs : List UInt8) : trim (b :: bs) = b :: bs := by
  rw [trim, List.dropWhile_cons_of_neg]
  simpa using h

/-- Leading zeros do not count. -/
@[simp] theorem ofBytesBE_trim (bs : List UInt8) : ofBytesBE (trim bs) = ofBytesBE bs := by
  induction bs with
  | nil => rfl
  | cons b bs ih =>
    by_cases h : b = 0
    · rw [h, trim_zero_cons, ih, ofBytesBE_zero_cons]
    · rw [trim_cons h]

@[simp] theorem ofBytesBE_replicate_append (n : ℕ) (bs : List UInt8) :
    ofBytesBE (List.replicate n 0 ++ bs) = ofBytesBE bs := by
  induction n with
  | zero => rfl
  | succ n ih => rw [List.replicate_succ, List.cons_append, ofBytesBE_zero_cons, ih]

/-- **A string is its length and its value.** -/
theorem ofBytesBE_inj {as bs : List UInt8} (hlen : as.length = bs.length)
    (h : ofBytesBE as = ofBytesBE bs) : as = bs := by
  induction as generalizing bs with
  | nil => exact (List.length_eq_zero_iff.mp hlen.symm).symm
  | cons a as ih =>
    cases bs with
    | nil => simp at hlen
    | cons b bs =>
      rw [List.length_cons, List.length_cons, Nat.succ_inj] at hlen
      rw [ofBytesBE_cons, ofBytesBE_cons, hlen] at h
      have ha : ofBytesBE as < 256 ^ bs.length := hlen ▸ ofBytesBE_lt as
      have hb : ofBytesBE bs < 256 ^ bs.length := ofBytesBE_lt bs
      have hhead : a.toNat = b.toNat := by
        have hdiv := congrArg (· / 256 ^ bs.length) h
        simpa [Nat.mul_add_div, Nat.add_div_of_dvd_right, mul_comm, Nat.div_eq_of_lt, ha, hb] using hdiv
      rw [hhead] at h
      rw [UInt8.toNat_inj.mp hhead, ih hlen (by omega)]

theorem bytesBE_ofBytesBE (bs : List UInt8) : bytesBE bs.length (ofBytesBE bs) = bs :=
  ofBytesBE_inj (length_bytesBE _ _) (ofBytesBE_bytesBE_of_lt (ofBytesBE_lt bs))

/-- The string begins with a byte other than zero, or is empty. -/
def Trimmed (bs : List UInt8) : Prop := ∀ b ∈ bs.head?, b ≠ 0

theorem trimmed_trim (bs : List UInt8) : Trimmed (trim bs) := by
  induction bs with
  | nil => simp [Trimmed]
  | cons b bs ih =>
    by_cases h : b = 0
    · rw [h, trim_zero_cons]
      exact ih
    · rw [trim_cons h]
      simpa [Trimmed] using h

theorem trim_eq_nil_iff {bs : List UInt8} : trim bs = [] ↔ ∀ b ∈ bs, b = 0 := by
  rw [trim, List.dropWhile_eq_nil_iff]
  simp only [beq_iff_eq]

/-- Only zeros stand for zero. -/
theorem ofBytesBE_eq_zero_iff {bs : List UInt8} : ofBytesBE bs = 0 ↔ ∀ b ∈ bs, b = 0 := by
  induction bs with
  | nil => simp
  | cons b bs ih =>
    have hpow : 0 < 256 ^ bs.length := by positivity
    rw [ofBytesBE_cons, Nat.add_eq_zero_iff, List.forall_mem_cons, ih, Nat.mul_eq_zero,
      or_iff_left hpow.ne', ← UInt8.toNat_inj]
    rfl

/-- A byte other than zero in front makes the number a large one. -/
theorem pow_le_ofBytesBE {b : UInt8} (h : b ≠ 0) (bs : List UInt8) :
    256 ^ bs.length ≤ ofBytesBE (b :: bs) := by
  have hb : 0 < b.toNat := by
    rw [Nat.pos_iff_ne_zero, ne_eq, ← UInt8.toNat_zero, UInt8.toNat_inj]
    exact h
  rw [ofBytesBE_cons]
  exact (Nat.le_mul_of_pos_left _ hb).trans (Nat.le_add_right _ _)

/-- A string of the same length with at least the value of one without leading zeros has none itself. -/
theorem Trimmed.of_le {as bs : List UInt8} (ha : Trimmed as) (hlen : as.length = bs.length)
    (hle : ofBytesBE as ≤ ofBytesBE bs) : Trimmed bs := by
  cases bs with
  | nil => simp [Trimmed]
  | cons b bs =>
    cases as with
    | nil => simp at hlen
    | cons a as =>
      rw [List.length_cons, List.length_cons, Nat.succ_inj] at hlen
      intro c hc hzero
      obtain rfl : b = c := by simpa using hc
      have hbig := (pow_le_ofBytesBE (ha a rfl) as).trans hle
      rw [hzero, ofBytesBE_zero_cons, hlen] at hbig
      exact absurd (ofBytesBE_lt bs) (not_lt.mpr hbig)

/-- **A string without leading zeros is its value.** -/
theorem Trimmed.eq_of_value {as bs : List UInt8} (ha : Trimmed as) (hb : Trimmed bs)
    (h : ofBytesBE as = ofBytesBE bs) : as = bs := by
  have hlen : ∀ {as bs : List UInt8}, Trimmed bs → ofBytesBE bs ≤ ofBytesBE as → bs.length ≤ as.length := by
    intro as bs hb hle
    cases bs with
    | nil => exact Nat.zero_le _
    | cons b bs =>
      have hlt := (pow_le_ofBytesBE (hb b rfl) bs).trans_lt (hle.trans_lt (ofBytesBE_lt as))
      exact (Nat.pow_lt_pow_iff_right (by norm_num)).mp hlt
  exact ofBytesBE_inj (le_antisymm (hlen ha h.le) (hlen hb h.ge)) h

/-- **Bytes that begin with a small positive one are minimal.** -/
theorem positiveBytes_ofBytesBE {b : UInt8} {bs : List UInt8} (h0 : b ≠ 0) (h1 : b.toNat < 128) :
    positiveBytes (ofBytesBE (b :: bs)) = b :: bs := by
  have hwidth : byteWidth (ofBytesBE (b :: bs)) = (b :: bs).length := by
    rw [byteWidth, List.length_cons, Nat.add_right_cancel_iff]
    exact Nat.log_eq_of_pow_le_of_lt_pow (pow_le_ofBytesBE h0 bs) (ofBytesBE_lt (b :: bs))
  have hhead : negativeHead (b :: bs) = false := by
    simpa [negativeHead] using h1
  simp only [positiveBytes]
  rw [hwidth, bytesBE_ofBytesBE, hhead]
  rfl

/-! ## The order -/

/-- The first difference of two strings of one length. -/
def cmpBytes : List UInt8 → List UInt8 → ℤ
  | a :: as, b :: bs => if a < b then -1 else if b < a then 1 else cmpBytes as bs
  | _, _ => 0

/-- By length, then by the first difference. -/
def cmpMagnitude (as bs : List UInt8) : ℤ :=
  if as.length < bs.length then -1 else if bs.length < as.length then 1 else cmpBytes as bs

/-- The sign of a difference of natural numbers, as it is told from their order. -/
theorem sign_sub_of_lt {m n : ℕ} (h : m < n) : ((m : ℤ) - n).sign = -1 := by
  rw [Int.sign_eq_neg_one_iff_neg]
  omega

theorem sign_sub_of_gt {m n : ℕ} (h : n < m) : ((m : ℤ) - n).sign = 1 := by
  rw [Int.sign_eq_one_iff_pos]
  omega

/-- **Among strings of one length the first difference decides.** -/
theorem cmpBytes_eq_sign {as bs : List UInt8} (h : as.length = bs.length) :
    cmpBytes as bs = ((ofBytesBE as : ℤ) - ofBytesBE bs).sign := by
  induction as generalizing bs with
  | nil =>
    obtain rfl := List.length_eq_zero_iff.mp h.symm
    rfl
  | cons a as ih =>
    cases bs with
    | nil => simp at h
    | cons b bs =>
      rw [List.length_cons, List.length_cons, Nat.succ_inj] at h
      have hlta := ofBytesBE_lt as
      have hltb := ofBytesBE_lt bs
      rw [h] at hlta
      rw [ofBytesBE_cons, ofBytesBE_cons, h, cmpBytes]
      split_ifs with hab hba
      · rw [UInt8.lt_iff_toNat_lt] at hab
        rw [sign_sub_of_lt]
        nlinarith [Nat.mul_le_mul_right (256 ^ bs.length) (Nat.succ_le_of_lt hab)]
      · rw [UInt8.lt_iff_toNat_lt] at hba
        rw [sign_sub_of_gt]
        nlinarith [Nat.mul_le_mul_right (256 ^ bs.length) (Nat.succ_le_of_lt hba)]
      · have heq : a.toNat = b.toNat := by
          rw [UInt8.lt_iff_toNat_lt] at hab hba
          omega
        rw [ih h, heq]
        congr 1
        push_cast
        ring

/-- **On strings without leading zeros `cmpMagnitude` is the order of the integers.** -/
theorem cmpMagnitude_eq_sign {as bs : List UInt8} (ha : Trimmed as) (hb : Trimmed bs) :
    cmpMagnitude as bs = ((ofBytesBE as : ℤ) - ofBytesBE bs).sign := by
  have longer : ∀ {cs ds : List UInt8}, Trimmed ds → cs.length < ds.length →
      ofBytesBE cs < ofBytesBE ds := by
    intro cs ds hd hlen
    cases ds with
    | nil => simp at hlen
    | cons d ds =>
      calc ofBytesBE cs < 256 ^ cs.length := ofBytesBE_lt cs
        _ ≤ 256 ^ ds.length := Nat.pow_le_pow_right (by norm_num) (Nat.lt_succ_iff.mp hlen)
        _ ≤ ofBytesBE (d :: ds) := pow_le_ofBytesBE (hd d rfl) ds
  rw [cmpMagnitude]
  split_ifs with hab hba
  · exact (sign_sub_of_lt (longer hb hab)).symm
  · exact (sign_sub_of_gt (longer ha hba)).symm
  · exact cmpBytes_eq_sign (by omega)

/-! ## Bitwise operations -/

/-- **A bitwise operation works byte by byte.** `g` is the operation on bits. -/
theorem ofBytesBE_zipWith {op : ℕ → ℕ → ℕ} {g : Bool → Bool → Bool} {f : UInt8 → UInt8 → UInt8}
    (hop : ∀ x y i, (op x y).testBit i = g (x.testBit i) (y.testBit i))
    (hf : ∀ a b, (f a b).toNat = op a.toNat b.toNat) {as bs : List UInt8}
    (h : as.length = bs.length) :
    ofBytesBE (List.zipWith f as bs) = op (ofBytesBE as) (ofBytesBE bs) := by
  have hpow : ∀ n : ℕ, 256 ^ n = 2 ^ (8 * n) := fun n => by rw [pow_mul]; norm_num
  induction as generalizing bs with
  | nil =>
    obtain rfl := List.length_eq_zero_iff.mp h.symm
    -- no bit of zero is set, so the operation has no bit to set either
    have hfalse : g false false = false := by
      have hbit := hop ((0 : UInt8).toNat) ((0 : UInt8).toNat) 8
      rw [← hf] at hbit
      rw [UInt8.toNat_zero, Nat.zero_testBit] at hbit
      rw [← hbit]
      exact Nat.testBit_lt_two_pow (UInt8.toNat_lt _)
    refine Nat.eq_of_testBit_eq fun i => ?_
    rw [hop, List.zipWith_nil_left, ofBytesBE_nil, Nat.zero_testBit, hfalse]
  | cons a as ih =>
    cases bs with
    | nil => simp at h
    | cons b bs =>
      rw [List.length_cons, List.length_cons, Nat.succ_inj] at h
      have hlt : ∀ cs : List UInt8, ofBytesBE cs < 2 ^ (8 * cs.length) := fun cs =>
        hpow cs.length ▸ ofBytesBE_lt cs
      have hzip : (List.zipWith f as bs).length = bs.length := by simp [h]
      refine Nat.eq_of_testBit_eq fun i => ?_
      rw [hop, List.zipWith_cons_cons, ofBytesBE_cons, ofBytesBE_cons, ofBytesBE_cons, hzip, h, hpow,
        mul_comm (f a b).toNat, mul_comm a.toNat, mul_comm b.toNat,
        Nat.testBit_two_pow_mul_add _ (hzip ▸ hlt _), Nat.testBit_two_pow_mul_add _ (h ▸ hlt as),
        Nat.testBit_two_pow_mul_add _ (hlt bs)]
      split_ifs with hi
      · rw [ih h, hop]
      · rw [hf, hop]

/-- **The complement** of a string, over its own bytes. -/
theorem ofBytesBE_map_complement (bs : List UInt8) :
    ofBytesBE (bs.map fun b => ~~~b) = 256 ^ bs.length - 1 - ofBytesBE bs := by
  induction bs with
  | nil => rfl
  | cons b bs ih =>
    have hlt := ofBytesBE_lt bs
    have hb : (~~~b).toNat = 255 - b.toNat := by
      rw [UInt8.toNat_not]
      rfl
    have hb' : b.toNat < 256 := UInt8.toNat_lt b
    rw [List.map_cons, ofBytesBE_cons, ofBytesBE_cons, List.length_map, ih, hb, List.length_cons, pow_succ]
    obtain ⟨c, hc⟩ : ∃ c, 255 = b.toNat + c := ⟨255 - b.toNat, by omega⟩
    have hsub : 255 - b.toNat = c := by omega
    have htotal : 256 ^ bs.length * 256 = b.toNat * 256 ^ bs.length + c * 256 ^ bs.length + 256 ^ bs.length := by
      rw [show 256 = b.toNat + c + 1 by omega]
      ring
    rw [hsub, htotal]
    omega

end BigEndian
