import Minima.Base.Reader
import Minima.Lib.BigEndian

/-! # The order of `MiniData`, with its cached value

A `MiniData` object keeps the unsigned integer of its bytes once it was asked for. `compare` looks at the
integers when one of the two objects has its own at hand, and otherwise at the bytes behind the leading
zeros.

* **`DataObject`**, **`DataObject.compare`** — the object with its cache, and the comparison.
* **`compare_run_iff`** — after any calls the comparison is that of the integers, unless nothing is cached
  and exactly one of two zeros is a single byte. -/

namespace Minima

open TwosComplement

namespace MiniData

/-- `getDataValue`: the bytes as an unsigned number. -/
def getDataValue (d : MiniData) : ℕ := ofBytesBE d.bytes

/-- `stripLeadingZeros`. -/
def stripLeadingZeros (input : List Byte) : List Byte :=
  let stripped := input.dropWhile fun b => b == 0
  -- all zeros, but the single zero byte stays
  if stripped = [] then if input = [0] then [0] else [] else stripped

/-- The loop of `compareMagnitude`. -/
def compareBytes : List Byte → List Byte → ℤ
  | a :: as, b :: bs => if a < b then -1 else if b < a then 1 else compareBytes as bs
  | _, _ => 0

/-- `compareMagnitude`. -/
def compareMagnitude (a b : List Byte) : ℤ :=
  if a.length < b.length then -1 else if b.length < a.length then 1 else compareBytes a b

/-- `compare` of two objects that have not been asked for their values. -/
def compare (a b : MiniData) : ℤ :=
  compareMagnitude (stripLeadingZeros a.bytes) (stripLeadingZeros b.bytes)

/-- `isLess`. -/
def isLess (a b : MiniData) : Bool := a.compare b < 0

/-- `isMore`. -/
def isMore (a b : MiniData) : Bool := a.compare b > 0

end MiniData

/-! ## The comparison of bytes -/

namespace MiniData

open BigEndian

theorem compareBytes_eq (a b : List Byte) : compareBytes a b = cmpBytes a b := by
  induction a generalizing b with
  | nil => cases b <;> rfl
  | cons x a ih =>
    cases b with
    | nil => rfl
    | cons y b => rw [compareBytes, cmpBytes, ih]

/-- A comparison comes out as minus one, zero or one. -/
theorem sign_compareMagnitude (a b : List Byte) : (compareMagnitude a b).sign = compareMagnitude a b := by
  have hbytes : ∀ a b : List Byte, (compareBytes a b).sign = compareBytes a b := by
    intro a
    induction a with
    | nil => intro b; cases b <;> rfl
    | cons x a ih =>
      intro b
      cases b with
      | nil => rfl
      | cons y b =>
        rw [compareBytes]
        split_ifs
        · rfl
        · rfl
        · exact ih b
  unfold compareMagnitude
  split_ifs
  · rfl
  · rfl
  · exact hbytes a b

theorem compareMagnitude_eq (a b : List Byte) : compareMagnitude a b = cmpMagnitude a b := by
  rw [compareMagnitude, cmpMagnitude, compareBytes_eq]

/-- The single zero byte is the only string that keeps a zero in front. -/
theorem stripLeadingZeros_of_ne {input : List Byte} (h : input ≠ [0]) :
    stripLeadingZeros input = trim input := by
  rw [stripLeadingZeros, trim, if_neg h]
  split_ifs with hnil
  · exact hnil.symm
  · rfl

theorem stripLeadingZeros_zero : stripLeadingZeros [0] = [0] := rfl

/-- **Two zeros of different shape:** one is the single zero byte, the other has no byte or several. -/
def ZeroMismatch (a b : MiniData) : Prop :=
  a.getDataValue = 0 ∧ b.getDataValue = 0 ∧ (a.bytes = [0] ↔ b.bytes ≠ [0])

instance (a b : MiniData) : Decidable (ZeroMismatch a b) :=
  inferInstanceAs (Decidable (_ ∧ _ ∧ _))

/-- Comparing with the single zero byte. -/
theorem cmpMagnitude_zero_left {bs : List Byte} (h : Trimmed bs) :
    cmpMagnitude [0] bs = ((0 : ℤ) - ofBytesBE bs).sign ↔ bs ≠ [] := by
  cases bs with
  | nil => decide
  | cons b bs =>
    have hb : b ≠ 0 := h b rfl
    have hpos : 0 < b.toNat := by
      rw [Nat.pos_iff_ne_zero, ne_eq, ← UInt8.toNat_zero, UInt8.toNat_inj]
      exact hb
    have hpow : 0 < 256 ^ bs.length := by positivity
    have hvalue : 0 < ofBytesBE (b :: bs) := hpow.trans_le (pow_le_ofBytesBE hb bs)
    have hsign : ((0 : ℤ) - ofBytesBE (b :: bs)).sign = -1 := sign_sub_of_lt hvalue
    refine iff_of_true ?_ (List.cons_ne_nil b bs)
    rw [hsign, cmpMagnitude]
    cases bs with
    | nil =>
      have hlt : (0 : Byte) < b := by
        rw [UInt8.lt_iff_toNat_lt]
        exact hpos
      simp [cmpBytes, hlt]
    | cons c bs => simp

/-- Both ways round `cmpMagnitude` is the same up to the sign. -/
theorem cmpMagnitude_swap (as bs : List Byte) : cmpMagnitude bs as = -cmpMagnitude as bs := by
  have hbytes : ∀ as bs : List Byte, cmpBytes bs as = -cmpBytes as bs := by
    intro as
    induction as with
    | nil => intro bs; cases bs <;> rfl
    | cons a as ih =>
      intro bs
      cases bs with
      | nil => rfl
      | cons b bs =>
        rw [cmpBytes, cmpBytes, ih]
        by_cases hab : a < b
        · rw [if_neg (UInt8.lt_asymm hab), if_pos hab, if_pos hab]
          rfl
        · by_cases hba : b < a
          · rw [if_pos hba, if_neg hab, if_pos hba]
          · rw [if_neg hba, if_neg hab, if_neg hab, if_neg hba]
  rw [cmpMagnitude, cmpMagnitude, hbytes]
  split_ifs <;> first | rfl | omega

theorem cmpMagnitude_zero_right {as : List Byte} (h : Trimmed as) :
    cmpMagnitude as [0] = ((ofBytesBE as : ℤ) - 0).sign ↔ as ≠ [] := by
  rw [← cmpMagnitude_zero_left h, cmpMagnitude_swap, sub_zero, zero_sub, Int.sign_neg, neg_eq_iff_eq_neg]

/-- **The comparison of bytes is that of the integers** exactly when the two are not zeros of different
shape. -/
theorem compare_eq_sign_iff (a b : MiniData) :
    a.compare b = ((a.getDataValue : ℤ) - b.getDataValue).sign ↔ ¬ ZeroMismatch a b := by
  have htrim : ∀ d : MiniData, Trimmed (trim d.bytes) := fun d => trimmed_trim d.bytes
  have hzero : ∀ d : MiniData, d.getDataValue = 0 ↔ trim d.bytes = [] := fun d => by
    rw [getDataValue, ofBytesBE_eq_zero_iff, trim_eq_nil_iff]
  unfold compare
  rw [compareMagnitude_eq, ZeroMismatch, hzero, hzero]
  by_cases ha : a.bytes = [0]
  · have hva : a.getDataValue = 0 := by
      rw [getDataValue, ha]
      rfl
    by_cases hb : b.bytes = [0]
    · rw [ha, hb, hva, getDataValue, hb]
      decide
    · rw [ha, stripLeadingZeros_zero, stripLeadingZeros_of_ne hb, hva, getDataValue,
        ← ofBytesBE_trim b.bytes]
      simp only [Nat.cast_zero]
      rw [cmpMagnitude_zero_left (htrim b)]
      simp [trim, hb]
  · by_cases hb : b.bytes = [0]
    · have hvb : b.getDataValue = 0 := by
        rw [getDataValue, hb]
        rfl
      rw [hb, stripLeadingZeros_zero, stripLeadingZeros_of_ne ha, hvb, getDataValue,
        ← ofBytesBE_trim a.bytes]
      simp only [Nat.cast_zero]
      rw [cmpMagnitude_zero_right (htrim a)]
      simp [trim, ha]
    · rw [stripLeadingZeros_of_ne ha, stripLeadingZeros_of_ne hb, cmpMagnitude_eq_sign (htrim a) (htrim b),
        ofBytesBE_trim, ofBytesBE_trim]
      simp [getDataValue, ha, hb]

/-- What is not more has no larger integer. -/
theorem getDataValue_le_of_isMore {a b : MiniData} (h : a.isMore b = false) :
    a.getDataValue ≤ b.getDataValue := by
  by_cases hzero : ZeroMismatch a b
  · exact hzero.1.trans_le (Nat.zero_le _)
  · rw [isMore, (compare_eq_sign_iff a b).mpr hzero, decide_eq_false_iff_not, gt_iff_lt,
      Int.sign_pos_iff] at h
    omega

end MiniData

/-! ## Objects -/

/-- **A `MiniData` object:** `mData`, and `mDataValue` where the integer was calculated already. -/
structure DataObject where
  data : MiniData
  dataValue : Option ℕ
  deriving DecidableEq

namespace DataObject

/-- The constructor from bytes. -/
def ofBytes (zData : List Byte) : DataObject := ⟨⟨zData⟩, none⟩

/-- The constructor from an unsigned integer: `export_bits` writes its bytes without leading zeros. -/
def ofBigInteger (zBigInteger : ℕ) : DataObject :=
  ⟨⟨if zBigInteger = 0 then [0] else bytesBE (Nat.log 256 zBigInteger + 1) zBigInteger⟩, some zBigInteger⟩

/-- What `getValue` returns. -/
def getValue (o : DataObject) : ℕ := o.dataValue.getD o.data.getDataValue

/-- The object behind `getValue`. -/
def evaluated (o : DataObject) : DataObject := { o with dataValue := some o.getValue }

/-- `cpp_int::compare`. -/
def compareInts (m n : ℕ) : ℤ := if m < n then -1 else if n < m then 1 else 0

/-- **`compare`**: what it returns, and the two objects behind it. -/
def compare (a b : DataObject) : ℤ × DataObject × DataObject :=
  if a.dataValue.isNone && b.dataValue.isNone then (a.data.compare b.data, a, b)
  else (compareInts a.getValue b.getValue, a.evaluated, b.evaluated)

/-- The object behind `shiftr` and `shiftl`, which calculate the integer for a positive shift. -/
def shifted (o : DataObject) (zNumber : ℤ) : DataObject := if zNumber ≤ 0 then o else o.evaluated

/-- **The object behind `readDataStream` and `readHashFromStream`,** which differ in the longest length.
`zSize` is the length that is asked for, where there is one. -/
def readData (maxLength : ℕ) (zSize : Option ℤ) (o : DataObject) (stream : List Byte) : DataObject :=
  match Reader.readInt32BE stream with
  | (.error _, _) => o
  | (.ok len, rest) =>
    if (maxLength : ℤ) < len ∨ len < 0 ∨ (∃ size ∈ zSize, len ≠ size) then o
    -- `mData` is assigned before the bytes are read, and the cache is reset after it
    else if rest.length < len.toNat then
      { o with data := ⟨rest ++ List.replicate (len.toNat - rest.length) 0⟩ }
    else ⟨⟨rest.take len.toNat⟩, none⟩

/-- The integer that is cached is that of the bytes. -/
def Coherent (o : DataObject) : Prop := ∀ v ∈ o.dataValue, v = o.data.getDataValue

/-- The stream ends within the bytes of the value that is read. -/
def Torn (maxLength : ℕ) (zSize : Option ℤ) (stream : List Byte) : Prop :=
  ∃ len rest, Reader.readInt32BE stream = (.ok len, rest) ∧ ¬ ((maxLength : ℤ) < len ∨ len < 0 ∨
    (∃ size ∈ zSize, len ≠ size)) ∧ rest.length < len.toNat

theorem compareInts_eq_sign (m n : ℕ) : compareInts m n = ((m : ℤ) - n).sign := by
  unfold compareInts
  split_ifs with hlt hgt
  · exact (BigEndian.sign_sub_of_lt hlt).symm
  · exact (BigEndian.sign_sub_of_gt hgt).symm
  · have heq : m = n := by omega
    rw [heq, sub_self]
    rfl

theorem Coherent.getValue {o : DataObject} (h : o.Coherent) : o.getValue = o.data.getDataValue := by
  unfold DataObject.getValue
  cases hv : o.dataValue with
  | none => rfl
  | some v => exact h v hv

theorem coherent_ofBytes (zData : List Byte) : (ofBytes zData).Coherent := by
  intro v hv
  cases hv

theorem coherent_ofBigInteger (zBigInteger : ℕ) : (ofBigInteger zBigInteger).Coherent := by
  intro v hv
  obtain rfl := Option.some.inj hv
  unfold ofBigInteger MiniData.getDataValue
  simp only
  split_ifs with hzero
  · exact hzero
  · rw [ofBytesBE_bytesBE_of_lt (Nat.lt_pow_succ_log_self (by norm_num) zBigInteger)]

theorem Coherent.evaluated {o : DataObject} (h : o.Coherent) : o.evaluated.Coherent := by
  intro v hv
  obtain rfl := Option.some.inj hv
  exact h.getValue

/-- A read that is not torn leaves a coherent object; so does any read of an object without a cache. -/
theorem Coherent.readData {o : DataObject} (h : o.Coherent) {maxLength : ℕ} {zSize : Option ℤ}
    {stream : List Byte} (hread : o.dataValue = none ∨ ¬ Torn maxLength zSize stream) :
    (o.readData maxLength zSize stream).Coherent := by
  unfold DataObject.readData
  split
  · exact h
  · next len rest hlen =>
    split_ifs with hcheck hshort
    · exact h
    · rcases hread with hnone | hread
      · intro v hv
        rw [hnone] at hv
        cases hv
      · exact absurd ⟨len, rest, hlen, hcheck, hshort⟩ hread
    · intro v hv
      cases hv

/-- **The sign is right exactly when a value is cached or the two are not zeros of different shape.** -/
theorem compare_eq_sign_iff {a b : DataObject} (ha : a.Coherent) (hb : b.Coherent) :
    (a.compare b).1 = ((a.data.getDataValue : ℤ) - b.data.getDataValue).sign ↔
      (a.dataValue.isSome ∨ b.dataValue.isSome) ∨ ¬ MiniData.ZeroMismatch a.data b.data := by
  unfold compare
  split_ifs with hnone
  · rw [Bool.and_eq_true, Option.isNone_iff_eq_none, Option.isNone_iff_eq_none] at hnone
    rw [MiniData.compare_eq_sign_iff, hnone.1, hnone.2]
    simp
  · refine iff_of_true ?_ (.inl ?_)
    · rw [ha.getValue, hb.getValue]
      exact compareInts_eq_sign _ _
    · cases hva : a.dataValue <;> cases hvb : b.dataValue <;> simp [hva, hvb] at hnone ⊢

theorem sign_compare (a b : DataObject) : (a.compare b).1.sign = (a.compare b).1 := by
  unfold compare
  split_ifs
  · exact MiniData.sign_compareMagnitude _ _
  · show (compareInts _ _).sign = compareInts _ _
    rw [compareInts_eq_sign, Int.sign_sign]

/-! ## Calls -/

/-- Which of two objects is called. -/
inductive Side where
  | left
  | right
  deriving DecidableEq

/-- **The calls on two objects,** on one `side` each. What only looks at the bytes (`getBytes`, `isEqual`,
`concat`, `to0xString`, the writers) is `look`. -/
inductive Call where
  | look (side : Side)
  /-- `getDataValue` and `getDataValueDecimal`. -/
  | getDataValue (side : Side)
  /-- `compare`, and `isLess` and its like, with the other object as the argument. -/
  | compare (side : Side)
  /-- `shiftr` and `shiftl`. -/
  | shift (side : Side) (zNumber : ℤ)
  /-- The object becomes a copy of the other one. -/
  | assign (side : Side)
  /-- The object becomes a copy of a new one. -/
  | assignBytes (side : Side) (zData : List Byte)
  | assignBigInteger (side : Side) (zBigInteger : ℕ)
  | readDataStream (side : Side) (zSize : Option ℤ) (stream : List Byte)
  | readHashFromStream (side : Side) (stream : List Byte)

/-- Two objects. -/
structure Pair where
  left : DataObject
  right : DataObject
  deriving DecidableEq

namespace Pair

def get (p : Pair) : Side → DataObject
  | .left => p.left
  | .right => p.right

def set (p : Pair) (side : Side) (o : DataObject) : Pair :=
  match side with
  | .left => { p with left := o }
  | .right => { p with right := o }

def other : Side → Side
  | .left => .right
  | .right => .left

/-- One call. -/
def call (p : Pair) : Call → Pair
  | .look _ => p
  | .getDataValue side => p.set side (p.get side).evaluated
  | .compare side =>
    let behind := (p.get side).compare (p.get (other side))
    (p.set side behind.2.1).set (other side) behind.2.2
  | .shift side zNumber => p.set side ((p.get side).shifted zNumber)
  | .assign side => p.set side (p.get (other side))
  | .assignBytes side zData => p.set side (ofBytes zData)
  | .assignBigInteger side zBigInteger => p.set side (ofBigInteger zBigInteger)
  | .readDataStream side zSize stream =>
    p.set side ((p.get side).readData MiniData.maxMiniDataLength zSize stream)
  | .readHashFromStream side stream =>
    p.set side ((p.get side).readData MiniData.maxHashLength none stream)

/-- Calls in their order. -/
def run (p : Pair) (calls : List Call) : Pair := calls.foldl call p

/-- Both caches are right. -/
def Coherent (p : Pair) : Prop := p.left.Coherent ∧ p.right.Coherent

/-- **The call does not break off within the bytes of an object whose value is cached.** -/
def Safe (p : Pair) : Call → Prop
  | .readDataStream side zSize stream =>
    (p.get side).dataValue = none ∨ ¬ Torn MiniData.maxMiniDataLength zSize stream
  | .readHashFromStream side stream =>
    (p.get side).dataValue = none ∨ ¬ Torn MiniData.maxHashLength none stream
  | _ => True

/-- All calls of a run are safe. -/
def SafeRun : Pair → List Call → Prop
  | _, [] => True
  | p, c :: calls => p.Safe c ∧ (p.call c).SafeRun calls

theorem Coherent.get {p : Pair} (h : p.Coherent) (side : Side) : (p.get side).Coherent := by
  cases side
  · exact h.1
  · exact h.2

theorem Coherent.set {p : Pair} (h : p.Coherent) (side : Side) {o : DataObject} (ho : o.Coherent) :
    (p.set side o).Coherent := by
  cases side
  · exact ⟨ho, h.2⟩
  · exact ⟨h.1, ho⟩

/-- **A safe call keeps the caches right.** -/
theorem Coherent.call {p : Pair} (h : p.Coherent) {c : Call} (hsafe : p.Safe c) : (p.call c).Coherent := by
  cases c with
  | look side => exact h
  | getDataValue side => exact h.set side (h.get side).evaluated
  | compare side =>
    unfold Pair.call DataObject.compare
    simp only
    split_ifs
    · exact (h.set side (h.get side)).set _ (h.get _)
    · exact (h.set side (h.get side).evaluated).set _ (h.get _).evaluated
  | shift side zNumber =>
    refine h.set side ?_
    unfold shifted
    split_ifs
    · exact h.get side
    · exact (h.get side).evaluated
  | assign side => exact h.set side (h.get _)
  | assignBytes side zData => exact h.set side (coherent_ofBytes zData)
  | assignBigInteger side zBigInteger => exact h.set side (coherent_ofBigInteger zBigInteger)
  | readDataStream side zSize stream => exact h.set side ((h.get side).readData hsafe)
  | readHashFromStream side stream => exact h.set side ((h.get side).readData hsafe)

theorem Coherent.run {p : Pair} (h : p.Coherent) {calls : List Call} (hsafe : p.SafeRun calls) :
    (p.run calls).Coherent := by
  induction calls generalizing p with
  | nil => exact h
  | cons c calls ih => exact ih (h.call hsafe.1) hsafe.2

end Pair

/-- Two objects made from bytes. -/
def Pair.ofBytes (a b : List Byte) : Pair := ⟨DataObject.ofBytes a, DataObject.ofBytes b⟩

/-- `left.compare(right)`. -/
def Pair.compare (p : Pair) : ℤ := (p.left.compare p.right).1

/-- **The comparison is that of the integers:** it has the sign of their difference. -/
def Pair.Ordered (p : Pair) : Prop :=
  p.compare.sign = ((p.left.data.getDataValue : ℤ) - p.right.data.getDataValue).sign

/-- One of the two integers is cached. -/
def Pair.Cached (p : Pair) : Prop := p.left.dataValue.isSome ∨ p.right.dataValue.isSome

/-- **After any calls on two byte strings the comparison is that of their integers** exactly when one of
the integers is cached by then, or the two are not zeros of different shape. -/
theorem compare_run_iff (a b : List Byte) (calls : List Call) (hsafe : (Pair.ofBytes a b).SafeRun calls) :
    ((Pair.ofBytes a b).run calls).Ordered ↔ ((Pair.ofBytes a b).run calls).Cached ∨
      ¬ MiniData.ZeroMismatch ((Pair.ofBytes a b).run calls).left.data
        ((Pair.ofBytes a b).run calls).right.data := by
  have hcoherent : ((Pair.ofBytes a b).run calls).Coherent :=
    Pair.Coherent.run ⟨coherent_ofBytes a, coherent_ofBytes b⟩ hsafe
  rw [Pair.Ordered, Pair.compare, sign_compare, compare_eq_sign_iff hcoherent.1 hcoherent.2, Pair.Cached]

/-- `0x00` and `0x0000` after the value of the first was asked for. -/
theorem compare_run_iff_evaluated : ((Pair.ofBytes [0] [0, 0]).run [.getDataValue .left]).Ordered :=
  (compare_run_iff [0] [0, 0] [.getDataValue .left] ⟨trivial, trivial⟩).mpr (.inl (.inl rfl))

/-- **`0x00` is more than `0x0000`** as long as nobody asks for a value. And when a stream breaks off in
an object whose value is cached, its new bytes compare as the old value. -/
theorem compare_not_run :
    ((Pair.ofBytes [0] [0, 0]).run []).compare = 1 ∧ ¬ ((Pair.ofBytes [0] [0, 0]).run []).Ordered ∧
      ((Pair.ofBytes [9] [5, 0]).run
        [.getDataValue .left, .readDataStream .left none [0, 0, 0, 2, 8]]).left.data = ⟨[8, 0]⟩ ∧
      ((Pair.ofBytes [9] [5, 0]).run
        [.getDataValue .left, .readDataStream .left none [0, 0, 0, 2, 8]]).compare = -1 ∧
      ¬ ((Pair.ofBytes [9] [5, 0]).run
        [.getDataValue .left, .readDataStream .left none [0, 0, 0, 2, 8]]).Ordered := by
  unfold Pair.Ordered
  decide +kernel

end DataObject

end Minima
