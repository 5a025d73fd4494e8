import Mathlib

/-! # Big-endian two's complement integers of any length

Byte strings as unsigned (`ofBytesBE`) and signed (`ofSigned`) big-endian integers, and the two
ways of writing a signed integer down that are inverted by `ofSigned`:

* a magnitude with a clear top bit stands for itself (`ofSigned_of_nonneg`);
* `256^w − m` written on `w` bytes stands for `−m` as soon as `m ≤ 256^w / 2`
  (`ofSigned_negative`). -/

namespace TwosComplement

/-- The low `len` bytes of `n`, most significant first. -/
def bytesBE : ℕ → ℕ → List UInt8
  | 0, _ => []
  | len + 1, n => UInt8.ofNat (n / 256 ^ len) :: bytesBE len n

/-- The unsigned big-endian value of a byte string. -/
def ofBytesBE (bs : List UInt8) : ℕ := bs.foldl (fun acc b => acc * 256 + b.toNat) 0

/-- The top bit of the first byte is set. -/
def negativeHead (bs : List UInt8) : Bool := match bs with
  | [] => false
  | b :: _ => 128 ≤ b.toNat

/-- The signed big-endian value of a byte string; the empty string is zero. -/
def ofSigned (bs : List UInt8) : ℤ :=
  if negativeHead bs then (ofBytesBE bs : ℤ) - 256 ^ bs.length else ofBytesBE bs

@[simp] theorem length_bytesBE (len n : ℕ) : (bytesBE len n).length = len := by
  induction len with
  | zero => rfl
  | succ len ih => simp [bytesBE, ih]

theorem ofBytesBE_cons (b : UInt8) (bs : List UInt8) :
    ofBytesBE (b :: bs) = b.toNat * 256 ^ bs.length + ofBytesBE bs := by
  have key : ∀ (bs : List UInt8) (acc : ℕ),
      bs.foldl (fun acc b => acc * 256 + b.toNat) acc = acc * 256 ^ bs.length + ofBytesBE bs := by
    intro bs
    induction bs with
    | nil => simp [ofBytesBE]
    | cons c cs ih =>
      intro acc
      rw [ofBytesBE, List.foldl_cons, List.foldl_cons, ih, ih (0 * 256 + c.toNat),
        List.length_cons]
      ring
  rw [ofBytesBE, List.foldl_cons, key]
  ring

/-- A leading zero byte does not change the unsigned value. -/
@[simp] theorem ofBytesBE_zero_cons (bs : List UInt8) : ofBytesBE (0 :: bs) = ofBytesBE bs := by
  simp [ofBytesBE_cons]

/-- **Round trip.** Writing `n` modulo `256^len` on `len` bytes and reading it back. -/
theorem ofBytesBE_bytesBE (len n : ℕ) : ofBytesBE (bytesBE len n) = n % 256 ^ len := by
  induction len with
  | zero => simp [bytesBE, ofBytesBE, Nat.mod_one]
  | succ len ih =>
    have hsplit : n % 256 ^ (len + 1) = n % 256 ^ len + 256 ^ len * (n / 256 ^ len % 256) := by
      rw [pow_succ, Nat.mod_mul]
    rw [bytesBE, ofBytesBE_cons, ih, length_bytesBE, UInt8.toNat_ofNat', hsplit,
      show 2 ^ 8 = 256 by norm_num]
    rw [mul_comm, add_comm]

theorem ofBytesBE_bytesBE_of_lt {len n : ℕ} (h : n < 256 ^ len) : ofBytesBE (bytesBE len n) = n := by
  rw [ofBytesBE_bytesBE, Nat.mod_eq_of_lt h]

/-- The head bit of `n` on `len + 1` bytes: set exactly from half the range on. -/
theorem negativeHead_bytesBE {len n : ℕ} (h : n < 256 ^ (len + 1)) :
    negativeHead (bytesBE (len + 1) n) = true ↔ 128 * 256 ^ len ≤ n := by
  have hdiv : n / 256 ^ len < 256 := by
    rw [Nat.div_lt_iff_lt_mul (by positivity), ← pow_succ']
    exact h
  simp only [negativeHead, bytesBE, decide_eq_true_eq, UInt8.toNat_ofNat']
  rw [Nat.mod_eq_of_lt (by simpa using hdiv), Nat.le_div_iff_mul_le (by positivity)]

/-- A byte string with a clear top bit stands for its unsigned value. -/
theorem ofSigned_of_nonneg {bs : List UInt8} (h : negativeHead bs = false) :
    ofSigned bs = ofBytesBE bs := by
  simp [ofSigned, h]

/-- The head bit of the two's complement of a negative number is set. -/
theorem negativeHead_negative {w m : ℕ} (hm : 0 < m) (hle : m ≤ 128 * 256 ^ w) :
    negativeHead (bytesBE (w + 1) (256 ^ (w + 1) - m)) = true := by
  have hpow : 256 ^ (w + 1) = 256 * 256 ^ w := pow_succ' 256 w
  rw [negativeHead_bytesBE (by omega)]
  omega

/-- **Two's complement of a negative number.** -/
theorem ofSigned_negative {w m : ℕ} (hm : 0 < m) (hle : m ≤ 128 * 256 ^ w) :
    ofSigned (bytesBE (w + 1) (256 ^ (w + 1) - m)) = -(m : ℤ) := by
  have hpow : 256 ^ (w + 1) = 256 * 256 ^ w := pow_succ' 256 w
  have hlt : 256 ^ (w + 1) - m < 256 ^ (w + 1) := by omega
  have hneg := negativeHead_negative hm hle
  rw [ofSigned, if_pos hneg, ofBytesBE_bytesBE_of_lt hlt, length_bytesBE]
  have hmle : m ≤ 256 ^ (w + 1) := by omega
  rw [Nat.cast_sub hmle]
  push_cast
  ring

theorem ofBytesBE_lt (bs : List UInt8) : ofBytesBE bs < 256 ^ bs.length := by
  induction bs with
  | nil => exact Nat.one_pos
  | cons b bs ih =>
    have hb : b.toNat + 1 ≤ 256 := b.toNat_lt
    rw [ofBytesBE_cons, List.length_cons, pow_succ]
    calc b.toNat * 256 ^ bs.length + ofBytesBE bs < b.toNat * 256 ^ bs.length + 256 ^ bs.length := by
          omega
      _ = (b.toNat + 1) * 256 ^ bs.length := by ring
      _ ≤ 256 * 256 ^ bs.length := Nat.mul_le_mul_right _ hb
      _ = 256 ^ bs.length * 256 := mul_comm _ _

/-- The range of `w + 1` bytes. -/
theorem ofSigned_bounds {bs : List UInt8} {w : ℕ} (h : bs.length = w + 1) :
    -(128 * 256 ^ w : ℕ) ≤ ofSigned bs ∧ ofSigned bs < (128 * 256 ^ w : ℕ) := by
  cases bs with
  | nil => simp at h
  | cons b bs =>
    have hlen : bs.length = w := by simpa using h
    have hrest : ofBytesBE bs < 256 ^ w := hlen ▸ ofBytesBE_lt bs
    have hb : b.toNat < 256 := b.toNat_lt
    have hvalue : ofBytesBE (b :: bs) = b.toNat * 256 ^ w + ofBytesBE bs := by
      rw [ofBytesBE_cons, hlen]
    have hcast : (256 : ℤ) ^ w = ((256 ^ w : ℕ) : ℤ) := by norm_cast
    unfold ofSigned
    rw [List.length_cons, hlen, hvalue, pow_succ, hcast]
    clear hvalue hcast
    split_ifs with hhead
    · have hb' : 128 ≤ b.toNat := by simpa [negativeHead] using hhead
      have hlow : 128 * 256 ^ w ≤ b.toNat * 256 ^ w := Nat.mul_le_mul_right _ hb'
      have hhigh : (b.toNat + 1) * 256 ^ w ≤ 256 * 256 ^ w := Nat.mul_le_mul_right _ hb
      rw [add_mul, one_mul] at hhigh
      generalize b.toNat * 256 ^ w = q at *
      generalize 256 ^ w = p at *
      constructor <;> omega
    · have hb' : b.toNat + 1 ≤ 128 := by simpa [negativeHead] using hhead
      have hhigh : (b.toNat + 1) * 256 ^ w ≤ 128 * 256 ^ w := Nat.mul_le_mul_right _ hb'
      rw [add_mul, one_mul] at hhigh
      constructor <;> omega

/-! ## Minimal widths -/

/-- The bytes that a positive magnitude needs. -/
def byteWidth (n : ℕ) : ℕ := Nat.log 256 n + 1

theorem lt_pow_byteWidth (n : ℕ) : n < 256 ^ byteWidth n :=
  Nat.lt_pow_succ_log_self (by norm_num) n

/-- A positive number in two's complement: its magnitude, with a zero byte before it when the top
bit of the magnitude is set. -/
def positiveBytes (n : ℕ) : List UInt8 :=
  let mag := bytesBE (byteWidth n) n
  if negativeHead mag then 0 :: mag else mag

/-- A positive number below half the range of `w + 1` bytes takes no more than these. -/
theorem length_positiveBytes_le {n w : ℕ} (h : n < 128 * 256 ^ w) :
    (positiveBytes n).length ≤ w + 1 := by
  have hpow : 128 * 256 ^ w < 256 ^ (w + 1) := by
    rw [pow_succ]
    have hpos : 0 < 256 ^ w := by positivity
    omega
  have hwidth : Nat.log 256 n < w + 1 := Nat.log_lt_of_lt_pow' (by omega) (h.trans hpow)
  simp only [positiveBytes]
  split_ifs with hhead
  · rw [byteWidth, negativeHead_bytesBE (lt_pow_byteWidth n)] at hhead
    have hlt : Nat.log 256 n < w := by
      by_contra hge
      have hmono : 256 ^ w ≤ 256 ^ Nat.log 256 n := Nat.pow_le_pow_right (by norm_num) (not_lt.mp hge)
      omega
    rw [List.length_cons, length_bytesBE, byteWidth]
    omega
  · rw [length_bytesBE, byteWidth]
    omega

theorem ofSigned_positiveBytes (n : ℕ) : ofSigned (positiveBytes n) = n := by
  have hval := ofBytesBE_bytesBE_of_lt (lt_pow_byteWidth n)
  simp only [positiveBytes]
  split_ifs with h
  · rw [ofSigned_of_nonneg (by simp [negativeHead]), ofBytesBE_zero_cons, hval]
  · rw [ofSigned_of_nonneg (by simpa using h), hval]

/-- A larger number takes at least as many bytes. -/
theorem length_positiveBytes_mono {m n : ℕ} (h : m ≤ n) :
    (positiveBytes m).length ≤ (positiveBytes n).length := by
  obtain ⟨w, hw⟩ : ∃ w, (positiveBytes n).length = w + 1 := by
    refine Nat.exists_eq_succ_of_ne_zero fun h0 => ?_
    simp only [positiveBytes] at h0
    split_ifs at h0
    rw [length_bytesBE, byteWidth] at h0
    omega
  have hn := (ofSigned_bounds hw).2
  rw [ofSigned_positiveBytes, Nat.cast_lt] at hn
  rw [hw]
  exact length_positiveBytes_le (h.trans_lt hn)

end TwosComplement
