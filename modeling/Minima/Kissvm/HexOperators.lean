import Minima.Base.DataOrder
import Minima.Kissvm.ExpressionParser

/-! # The bitwise operators on byte strings

`&`, `|`, `^` and `~` of an `OperatorExpression` work on byte strings that stand for unsigned integers.
The operands are aligned at their last bytes, and the result loses its leading zeros.

* **`OperatorExpression.andFastHEX`**, **`orFastHEX`**, **`notFastHEX`** — the loops over the bytes.
* **`OperatorExpression.fastHEX_value`** — they are the bitwise operations of the integers. -/

namespace Minima.Kissvm.OperatorExpression

open TwosComplement BigEndian

/-! ## The loops -/

/-- `std::copy` of some bytes to position `pos` of a vector. -/
def copyTo (src : List Byte) (pos : ℕ) (dst : List Byte) : List Byte :=
  dst.take pos ++ src ++ dst.drop (pos + src.length)

/-- The bytes that the loop writes to the result: none before the first one that is not zero. -/
def collect : Bool → List Byte → List Byte
  | _, [] => []
  | nonzerofound, bres :: rest =>
    if nonzerofound then bres :: collect true rest
    else if bres ≠ 0 then bres :: collect true rest
    else collect false rest

/-- The bytes that were written, or `0x00`. -/
def finalResult (result : List Byte) : MiniData :=
  if result.length = 0 then ⟨[0]⟩ else ⟨result⟩

/-- `andFastHEX`: the last bytes of the longer operand count. -/
def andFastHEX (zHex1 zHex2 : MiniData) : MiniData :=
  let bytesh1 := zHex1.bytes
  let bytesh2 := zHex2.bytes
  let len1 := bytesh1.length
  let len2 := bytesh2.length
  let hex1shorter := !(decide (len2 < len1))
  let minlen := if len2 < len1 then len2 else len1
  let zeros := List.replicate minlen 0
  let pbytes1 :=
    if hex1shorter then
      if minlen ≤ len1 then copyTo (bytesh1.take minlen) 0 zeros else copyTo bytesh1 0 zeros
    else if minlen ≤ len1 then copyTo (bytesh1.drop (len1 - minlen)) 0 zeros
    else copyTo bytesh1 (minlen - len1) zeros
  let pbytes2 :=
    if hex1shorter then
      if minlen ≤ len2 then copyTo (bytesh2.drop (len2 - minlen)) 0 zeros
      else copyTo bytesh2 (minlen - len2) zeros
    else if minlen ≤ len2 then copyTo (bytesh2.take minlen) 0 zeros
    else copyTo bytesh2 0 zeros
  finalResult (collect false (List.zipWith (· &&& ·) pbytes1 pbytes2))

/-- `orFastHEX`: the shorter operand gets leading zeros. `zType` is zero for `|`, and not for `^`. -/
def orFastHEX (zHex1 zHex2 : MiniData) (zType : ℤ) : MiniData :=
  let bytesh1 := zHex1.bytes
  let bytesh2 := zHex2.bytes
  let len1 := bytesh1.length
  let len2 := bytesh2.length
  let hex1longer := !(decide (len1 < len2))
  let maxlen := if len1 < len2 then len2 else len1
  let zeros := List.replicate maxlen 0
  let pbytes1 :=
    if hex1longer then
      if maxlen ≤ len1 then copyTo (bytesh1.take maxlen) 0 zeros else copyTo bytesh1 0 zeros
    else if len1 ≤ maxlen then copyTo bytesh1 (maxlen - len1) zeros
    else copyTo (bytesh1.take maxlen) 0 zeros
  let pbytes2 :=
    if hex1longer then
      if len2 ≤ maxlen then copyTo bytesh2 (maxlen - len2) zeros
      else copyTo (bytesh2.drop (len2 - maxlen)) 0 zeros
    else if maxlen ≤ len2 then copyTo (bytesh2.take maxlen) 0 zeros
    else copyTo bytesh2 0 zeros
  if zType = 0 then finalResult (collect false (List.zipWith (· ||| ·) pbytes1 pbytes2))
  else finalResult (collect false (List.zipWith (· ^^^ ·) pbytes1 pbytes2))

/-- `notFastHEX`. -/
def notFastHEX (zHex1 : MiniData) : MiniData :=
  finalResult (collect false (zHex1.bytes.map fun b => ~~~b))

/-! ## The operators -/

/-- An operator on two byte strings. -/
def binary (name : String) (f : MiniData → MiniData → MiniData) (lval : Value) :
    Option Value → Scripted Value
  | none => .error (.execution (name ++ " requires right expression"))
  | some rval =>
    match lval, rval with
    | .hex left, .hex right => Value.hexValue (f left right)
    | _, _ =>
      if lval.getValueType = rval.getValueType then
        .error (.standard "Operation requires that both value types are of type ")
      else .error (.standard "Operation requires that both value types MUST be the same")

/-- The cases of `getValue` for the bitwise operators, with the values of the two sides. -/
def getBitwise (zOperatorType : OperatorType) (lval : Value) (rval : Option Value) : Scripted Value :=
  match zOperatorType with
  | .and => binary "AND" andFastHEX lval rval
  | .or => binary "OR" (orFastHEX · · 0) lval rval
  | .xor => binary "XOR" (orFastHEX · · 1) lval rval
  | .not =>
    match lval with
    | .hex left => Value.hexValue (notFastHEX left)
    | _ => .error (.standard "Incorrect value type, expected HEX")
  | _ => .error (.execution "UNKNOWN operator")

/-! ## What the loops compute -/

/-- The loop drops the leading zeros. -/
theorem collect_eq_trim (bs : List Byte) : collect false bs = trim bs := by
  have htrue : ∀ cs, collect true cs = cs := by
    intro cs
    induction cs with
    | nil => rfl
    | cons c cs ih => rw [collect, if_pos rfl, ih]
  induction bs with
  | nil => rfl
  | cons b bs ih =>
    rw [collect, if_neg Bool.false_ne_true]
    by_cases h : b = 0
    · rw [if_neg (not_not.mpr h), ih, h, trim_zero_cons]
    · rw [if_pos h, htrue, trim_cons h]

/-- **The result stands for the same integer** as the bytes with their leading zeros. -/
theorem getDataValue_finalResult (bs : List Byte) :
    (finalResult (collect false bs)).getDataValue = ofBytesBE bs := by
  rw [collect_eq_trim, finalResult, ← ofBytesBE_trim bs]
  split_ifs with h
  · rw [List.length_eq_zero_iff.mp h]
    rfl
  · rfl

/-- A copy to the end of a vector. -/
theorem copyTo_end {src dst : List Byte} {pos : ℕ} (h : pos + src.length = dst.length) :
    copyTo src pos dst = dst.take pos ++ src := by
  rw [copyTo, h, List.drop_length, List.append_nil]

/-- A copy that fills a vector of zeros from the right: the zeros in front stay. -/
theorem copyTo_zeros (src : List Byte) {n : ℕ} (h : src.length ≤ n) :
    copyTo src (n - src.length) (List.replicate n 0) = List.replicate (n - src.length) 0 ++ src := by
  rw [copyTo_end (by rw [List.length_replicate]; omega), List.take_replicate]
  congr 2
  omega

/-- A copy over the whole vector. -/
theorem copyTo_all {src : List Byte} {n : ℕ} (h : src.length = n) :
    copyTo src 0 (List.replicate n 0) = src := by
  rw [copyTo_end (by rw [List.length_replicate]; omega), List.take_zero, List.nil_append]

/-- **Aligned at the last byte**, padded to `n` bytes. -/
def aligned (n : ℕ) (bs : List Byte) : List Byte := List.replicate (n - bs.length) 0 ++ bs

@[simp] theorem ofBytesBE_aligned (n : ℕ) (bs : List Byte) : ofBytesBE (aligned n bs) = ofBytesBE bs :=
  ofBytesBE_replicate_append _ _

theorem length_aligned {n : ℕ} {bs : List Byte} (h : bs.length ≤ n) : (aligned n bs).length = n := by
  rw [aligned, List.length_append, List.length_replicate]
  omega

/-- A bitwise operation on aligned operands is that of their integers. -/
theorem ofBytesBE_zipWith_aligned {op : ℕ → ℕ → ℕ} {g : Bool → Bool → Bool} {f : Byte → Byte → Byte}
    (hop : ∀ x y i, (op x y).testBit i = g (x.testBit i) (y.testBit i))
    (hf : ∀ a b, (f a b).toNat = op a.toNat b.toNat) {n : ℕ} {as bs : List Byte}
    (has : as.length ≤ n) (hbs : bs.length ≤ n) :
    ofBytesBE (List.zipWith f (aligned n as) (aligned n bs)) = op (ofBytesBE as) (ofBytesBE bs) := by
  rw [ofBytesBE_zipWith hop hf (by rw [length_aligned has, length_aligned hbs]), ofBytesBE_aligned,
    ofBytesBE_aligned]

theorem aligned_self (bs : List Byte) : aligned bs.length bs = bs := by
  rw [aligned, Nat.sub_self, List.replicate_zero, List.nil_append]

/-- Only the last bytes of the longer operand can have bits in common with the shorter one. -/
theorem ofBytesBE_and_drop {as bs : List Byte} (h : as.length ≤ bs.length) :
    ofBytesBE (List.zipWith (· &&& ·) as (bs.drop (bs.length - as.length))) =
      ofBytesBE as &&& ofBytesBE bs := by
  have hzip : ofBytesBE (List.zipWith (· &&& ·) (aligned bs.length as) (aligned bs.length bs)) =
      ofBytesBE as &&& ofBytesBE bs :=
    ofBytesBE_zipWith_aligned Nat.testBit_and UInt8.toNat_and h le_rfl
  have hfront : List.zipWith (· &&& ·) (List.replicate (bs.length - as.length) 0)
      (bs.take (bs.length - as.length)) = List.replicate (bs.length - as.length) 0 := by
    refine List.eq_replicate_iff.mpr ⟨by simp, fun b hb => ?_⟩
    obtain ⟨i, hi, rfl⟩ := List.mem_iff_getElem.mp hb
    simp
  rw [← hzip, aligned_self]
  conv_rhs => rw [aligned, ← List.take_append_drop (bs.length - as.length) bs,
    List.zipWith_append (by simp), List.take_append_drop, hfront, ofBytesBE_replicate_append]

theorem testBit_complement {n v : ℕ} (h : v < 2 ^ n) (i : ℕ) :
    (2 ^ n - 1 - v).testBit i = (decide (i < n) && !v.testBit i) := by
  rw [show 2 ^ n - 1 - v = 2 ^ n - (v + 1) by omega, Nat.testBit_two_pow_sub_succ h]

/-- The result has no more bytes than the loop looks at, apart from the `0x00`. -/
theorem getLength_finalResult_le (bs : List Byte) :
    (finalResult (collect false bs)).getLength ≤ max 1 bs.length := by
  rw [collect_eq_trim, finalResult]
  split_ifs
  · exact le_max_left _ _
  · exact le_max_of_le_right (List.length_dropWhile_le _ _)

theorem andFastHEX_value (a b : MiniData) :
    (andFastHEX a b).getDataValue = a.getDataValue &&& b.getDataValue := by
  unfold andFastHEX
  simp only [MiniData.getDataValue]
  by_cases h : b.bytes.length < a.bytes.length
  · have hle := h.le
    simp only [h, decide_true, Bool.not_true, Bool.false_eq_true, if_true, if_false, hle, le_refl,
      List.take_length]
    rw [copyTo_all (by rw [List.length_drop]; omega), copyTo_all rfl]
    refine (getDataValue_finalResult _).trans ?_
    rw [List.zipWith_comm_of_comm UInt8.and_comm, ofBytesBE_and_drop hle, Nat.and_comm]
  · have hle := not_lt.mp h
    simp only [h, decide_false, Bool.not_false, if_true, if_false, hle, le_refl, List.take_length]
    rw [copyTo_all rfl, copyTo_all (by rw [List.length_drop]; omega)]
    exact (getDataValue_finalResult _).trans (ofBytesBE_and_drop hle)

/-- `andFastHEX` looks at the bytes that both operands have. -/
theorem getLength_andFastHEX_le (a b : MiniData) :
    (andFastHEX a b).getLength ≤ max 1 (min a.getLength b.getLength) := by
  have hzip : ∀ as bs : List Byte, (as.length ≤ min a.getLength b.getLength) →
      (finalResult (collect false (List.zipWith (· &&& ·) as bs))).getLength ≤
        max 1 (min a.getLength b.getLength) := by
    intro as bs has
    refine (getLength_finalResult_le _).trans (max_le_max le_rfl ?_)
    rw [List.length_zipWith]
    exact (min_le_left _ _).trans has
  unfold andFastHEX
  refine hzip _ _ ?_
  show _ ≤ min a.bytes.length b.bytes.length
  by_cases h : b.bytes.length < a.bytes.length
  · simp only [h, decide_true, Bool.not_true, Bool.false_eq_true, if_true, if_false, h.le]
    rw [copyTo_all (by rw [List.length_drop]; omega), List.length_drop]
    omega
  · simp only [h, decide_false, Bool.not_false, if_true, if_false, le_refl, List.take_length]
    rw [copyTo_all rfl]
    omega

/-- **Aligned operands** reach the loops of `orFastHEX`. -/
theorem orFastHEX_eq (a b : MiniData) (zType : ℤ) :
    orFastHEX a b zType =
      finalResult (collect false (List.zipWith (if zType = 0 then (· ||| ·) else (· ^^^ ·))
        (aligned (max a.bytes.length b.bytes.length) a.bytes)
        (aligned (max a.bytes.length b.bytes.length) b.bytes))) := by
  unfold orFastHEX
  by_cases h : a.bytes.length < b.bytes.length
  · have hle := h.le
    simp only [h, decide_true, Bool.not_true, Bool.false_eq_true, if_true, if_false, hle, le_refl,
      List.take_length, max_eq_right]
    rw [copyTo_zeros _ hle, copyTo_all rfl, aligned_self]
    split_ifs <;> rfl
  · have hle := not_lt.mp h
    simp only [h, decide_false, Bool.not_false, if_true, if_false, hle, le_refl, List.take_length,
      max_eq_left]
    rw [copyTo_zeros _ hle, copyTo_all rfl, aligned_self]
    split_ifs <;> rfl

theorem orFastHEX_value (a b : MiniData) :
    (orFastHEX a b 0).getDataValue = a.getDataValue ||| b.getDataValue := by
  rw [orFastHEX_eq, if_pos rfl, getDataValue_finalResult]
  exact ofBytesBE_zipWith_aligned Nat.testBit_or UInt8.toNat_or (le_max_left _ _) (le_max_right _ _)

theorem xorFastHEX_value (a b : MiniData) {zType : ℤ} (h : zType ≠ 0) :
    (orFastHEX a b zType).getDataValue = a.getDataValue ^^^ b.getDataValue := by
  rw [orFastHEX_eq, if_neg h, getDataValue_finalResult]
  exact ofBytesBE_zipWith_aligned Nat.testBit_xor UInt8.toNat_xor (le_max_left _ _) (le_max_right _ _)

theorem notFastHEX_value (a : MiniData) :
    (notFastHEX a).getDataValue = 2 ^ (8 * a.getLength) - 1 - a.getDataValue := by
  rw [notFastHEX, getDataValue_finalResult, ofBytesBE_map_complement, pow_mul]
  rfl

theorem getLength_orFastHEX_le (a b : MiniData) (zType : ℤ) :
    (orFastHEX a b zType).getLength ≤ max 1 (max a.getLength b.getLength) := by
  rw [orFastHEX_eq]
  refine (getLength_finalResult_le _).trans (max_le_max le_rfl ?_)
  rw [List.length_zipWith, length_aligned (le_max_left _ _)]
  exact min_le_left _ _

theorem getLength_notFastHEX_le (a : MiniData) : (notFastHEX a).getLength ≤ max 1 a.getLength := by
  refine (getLength_finalResult_le _).trans (max_le_max le_rfl ?_)
  rw [List.length_map]
  exact le_rfl

/-- **The bitwise operators are those of the integers**, for operands of any lengths and with any
leading zeros; the complement is taken over the bytes of its operand. -/
theorem fastHEX_value (a b : MiniData) :
    (andFastHEX a b).getDataValue = a.getDataValue &&& b.getDataValue ∧
      (orFastHEX a b 0).getDataValue = a.getDataValue ||| b.getDataValue ∧
      (orFastHEX a b 1).getDataValue = a.getDataValue ^^^ b.getDataValue ∧
      (notFastHEX a).getDataValue = 2 ^ (8 * a.getLength) - 1 - a.getDataValue ∧
      ∀ i, (notFastHEX a).getDataValue.testBit i =
        (decide (i < 8 * a.getLength) && !a.getDataValue.testBit i) := by
  have hlt : a.getDataValue < 2 ^ (8 * a.getLength) := by
    rw [pow_mul]
    exact ofBytesBE_lt a.bytes
  refine ⟨andFastHEX_value a b, orFastHEX_value a b, xorFastHEX_value a b one_ne_zero, notFastHEX_value a,
    fun i => ?_⟩
  rw [notFastHEX_value, testBit_complement hlt]

/-- The operators of a script do not throw on values that it can hold: the results fit too. -/
theorem getBitwise_eq {a b : MiniData} (ha : a.getLength ≤ Value.maxDataSize)
    (hb : b.getLength ≤ Value.maxDataSize) :
    getBitwise .and (.hex a) (some (.hex b)) = .ok (.hex (andFastHEX a b)) ∧
      getBitwise .or (.hex a) (some (.hex b)) = .ok (.hex (orFastHEX a b 0)) ∧
      getBitwise .xor (.hex a) (some (.hex b)) = .ok (.hex (orFastHEX a b 1)) ∧
      getBitwise .not (.hex a) none = .ok (.hex (notFastHEX a)) := by
  have hfits : ∀ d : MiniData, d.getLength ≤ max 1 (max a.getLength b.getLength) →
      Value.hexValue d = .ok (.hex d) := by
    intro d hd
    refine if_neg (not_lt.mpr (hd.trans (max_le ?_ (max_le ha hb))))
    decide
  refine ⟨hfits _ ?_, hfits _ (getLength_orFastHEX_le a b 0), hfits _ (getLength_orFastHEX_le a b 1),
    hfits _ ?_⟩
  · exact (getLength_andFastHEX_le a b).trans (max_le_max le_rfl min_le_max)
  · exact (getLength_notFastHEX_le a).trans (max_le_max le_rfl (le_max_left _ _))

example : andFastHEX ⟨[0xFF, 0x0F]⟩ ⟨[0x3C]⟩ = ⟨[0x0C]⟩ := by decide

end Minima.Kissvm.OperatorExpression
