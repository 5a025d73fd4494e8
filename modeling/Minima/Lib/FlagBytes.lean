import Mathlib.Data.List.DropRight
import Mathlib.Logic.Function.Basic

/-! # Byte strings as arrays of flags

Flag `i` of a byte string is bit `i % 8` of byte `i / 8`, the lowest bit first; behind the last byte no
flag is up. Zero bytes at the end therefore make no difference to the flags.

* **`FlagBytes.flag_setFlag`** — setting a flag is an update of the function of flags.
* **`FlagBytes.flag_trimEnd`** — the zero bytes at the end can go. -/

namespace FlagBytes

/-- Flag `i`. -/
def flag (bs : List UInt8) (i : ℕ) : Bool := (bs.getD (i / 8) 0).toNat.testBit (i % 8)

/-- A byte with one bit on or off. -/
def setBit (byte : UInt8) (k : ℕ) (on : Bool) : UInt8 :=
  if on then byte ||| UInt8.ofNat (1 <<< k) else byte &&& ~~~UInt8.ofNat (1 <<< k)

/-- The byte string with one flag up or down. -/
def setFlag (bs : List UInt8) (i : ℕ) (on : Bool) : List UInt8 :=
  bs.set (i / 8) (setBit (bs.getD (i / 8) 0) (i % 8) on)

/-- The byte string without the zero bytes at its end. -/
def trimEnd (bs : List UInt8) : List UInt8 := bs.rdropWhile (· == 0)

/-! ## One byte -/

theorem testBit_mask {k j : ℕ} (hk : k < 8) :
    (UInt8.ofNat (1 <<< k)).toNat.testBit j = decide (k = j) := by
  have hlt : 1 <<< k < 256 := by
    rw [Nat.one_shiftLeft]
    exact Nat.pow_lt_pow_right (by omega : 1 < 2) hk
  rw [UInt8.toNat_ofNat_of_lt' hlt, Nat.one_shiftLeft, Nat.testBit_two_pow]

theorem testBit_not (byte : UInt8) {j : ℕ} (hj : j < 8) :
    (~~~byte).toNat.testBit j = !byte.toNat.testBit j := by
  rw [← UInt8.toNat_toBitVec, ← UInt8.toNat_toBitVec, BitVec.testBit_toNat, BitVec.testBit_toNat,
    UInt8.toBitVec_not, BitVec.getLsbD_not, decide_eq_true hj, Bool.true_and]

/-- **One bit of a byte.** -/
theorem testBit_setBit (byte : UInt8) {k j : ℕ} (on : Bool) (hk : k < 8) (hj : j < 8) :
    (setBit byte k on).toNat.testBit j = if j = k then on else byte.toNat.testBit j := by
  cases on with
  | true =>
    rw [setBit, if_pos rfl, UInt8.toNat_or, Nat.testBit_or, testBit_mask hk]
    by_cases h : j = k
    · rw [if_pos h, decide_eq_true h.symm, Bool.or_true]
    · rw [if_neg h, decide_eq_false (Ne.symm h), Bool.or_false]
  | false =>
    rw [setBit, if_neg Bool.false_ne_true, UInt8.toNat_and, Nat.testBit_and, testBit_not _ hj,
      testBit_mask hk]
    by_cases h : j = k
    · rw [if_pos h, decide_eq_true h.symm, Bool.not_true, Bool.and_false]
    · rw [if_neg h, decide_eq_false (Ne.symm h), Bool.not_false, Bool.and_true]

/-! ## All bytes -/

@[simp] theorem length_setFlag (bs : List UInt8) (i : ℕ) (on : Bool) :
    (setFlag bs i on).length = bs.length := List.length_set

/-- Behind the last byte no flag is up. -/
theorem flag_eq_false {bs : List UInt8} {i : ℕ} (h : 8 * bs.length ≤ i) : flag bs i = false := by
  have hbyte : bs.length ≤ i / 8 := by omega
  rw [flag, List.getD_eq_getElem?_getD, List.getElem?_eq_none hbyte]
  exact Nat.zero_testBit _

/-- **Setting a flag is an update of the function of flags.** -/
theorem flag_setFlag {bs : List UInt8} {i : ℕ} (on : Bool) (h : i < 8 * bs.length) :
    flag (setFlag bs i on) = Function.update (flag bs) i on := by
  funext j
  have hbyte : i / 8 < bs.length := by omega
  rw [Function.update_apply, flag, setFlag, List.getD_eq_getElem?_getD, List.getElem?_set]
  by_cases hsame : i / 8 = j / 8
  · rw [if_pos hsame, if_pos (hsame ▸ hbyte), Option.getD_some,
      testBit_setBit _ _ (Nat.mod_lt _ (by omega)) (Nat.mod_lt _ (by omega))]
    by_cases hij : j = i
    · rw [if_pos hij, if_pos (by rw [hij])]
    · rw [if_neg hij, if_neg (by omega), flag, hsame]
  · rw [if_neg hsame, if_neg (by rintro rfl; exact hsame rfl), flag, List.getD_eq_getElem?_getD]

theorem length_trimEnd_le (bs : List UInt8) : (trimEnd bs).length ≤ bs.length :=
  (List.rdropWhile_prefix _ _).length_le

/-- The byte string is what stays, and zeros. -/
theorem exists_replicate_trimEnd (bs : List UInt8) :
    ∃ n, bs = trimEnd bs ++ List.replicate n 0 := by
  refine ⟨(bs.reverse.takeWhile (· == 0)).length, ?_⟩
  have hzeros : bs.reverse.takeWhile (· == 0)
      = List.replicate (bs.reverse.takeWhile (· == 0)).length 0 := by
    refine List.eq_replicate_iff.mpr ⟨rfl, fun b hb => ?_⟩
    simpa using List.mem_takeWhile_imp hb
  calc bs = (bs.reverse.takeWhile (· == 0) ++ bs.reverse.dropWhile (· == 0)).reverse := by
        rw [List.takeWhile_append_dropWhile, List.reverse_reverse]
    _ = trimEnd bs ++ (bs.reverse.takeWhile (· == 0)).reverse := by
        rw [List.reverse_append, trimEnd, List.rdropWhile]
    _ = trimEnd bs ++ List.replicate (bs.reverse.takeWhile (· == 0)).length 0 := by
        rw [hzeros, List.reverse_replicate, List.length_replicate]

/-- **The zero bytes at the end can go.** -/
theorem flag_trimEnd (bs : List UInt8) : flag (trimEnd bs) = flag bs := by
  obtain ⟨n, hn⟩ := exists_replicate_trimEnd bs
  funext i
  unfold flag
  congr 2
  conv_rhs => rw [hn]
  rw [List.getD_eq_getElem?_getD, List.getD_eq_getElem?_getD, List.getElem?_append]
  split_ifs with h
  · rfl
  · rw [List.getElem?_eq_none (by omega), List.getElem?_replicate]
    split_ifs <;> rfl

/-- Nothing is cut off exactly when the last byte is not zero. -/
theorem length_trimEnd_eq_iff (bs : List UInt8) :
    (trimEnd bs).length = bs.length ↔ bs.getLast? ≠ some 0 := by
  rcases List.eq_nil_or_concat bs with rfl | ⟨front, b, rfl⟩
  · simp [trimEnd]
  · rw [List.concat_eq_append, List.getLast?_append_of_ne_nil _ (List.cons_ne_nil _ _),
      List.getLast?_singleton, Ne, Option.some.injEq, trimEnd]
    by_cases hb : b = 0
    · have hle := (List.rdropWhile_prefix (fun c : UInt8 => c == 0) front).length_le
      rw [List.rdropWhile_concat_pos _ _ _ (by rw [hb]; rfl), List.length_append,
        List.length_singleton]
      exact iff_of_false (by omega) (not_not.mpr hb)
    · rw [List.rdropWhile_concat_neg _ _ _ (by simpa using hb)]
      exact iff_of_true rfl hb

end FlagBytes
