import Minima.Base.Reader
import Minima.Lib.MountainRange
import Minima.Utils.Crypto

/-! # Entry numbers, entry data and entries of an MMR

* **`MMREntryNumber`** — the number of a node in its row, a decimal with exact arithmetic. The
  nodes of a tree have natural numbers (`ofNat`); a number read from a stream may be any decimal.
* **`MMRData`** — what a node carries: a hash and the sum of the values under it. The value is
  canonical by construction, since every constructor copies it.
* **`MMREntry`** — a row, an entry number and the data, or an empty answer without data. -/

namespace Minima

open Decimal TwosComplement

/-! ## Entry numbers -/

/-- `MMREntryNumber`: the decimal `unscaled · 10^(-scale)`, without limits. -/
structure MMREntryNumber where
  unscaled : ℤ
  scale : ℤ
  deriving DecidableEq, Repr, Inhabited

namespace MMREntryNumber

/-- The constructor from an integer. -/
def ofInt (n : ℤ) : MMREntryNumber := ⟨n, 0⟩

/-- The entry number of the `n`-th node of a row. -/
def ofNat (n : ℕ) : MMREntryNumber := ofInt n

def zero : MMREntryNumber := ofInt 0

def two : MMREntryNumber := ofInt 2

/-- The rational an entry number stands for. -/
def toRat (x : MMREntryNumber) : ℚ := value x.unscaled x.scale

/-- `compare_values` on the two decimals: −1, 0 or 1. -/
def compareTo (a b : MMREntryNumber) : ℤ :=
  if a.unscaled = 0 ∧ b.unscaled = 0 then 0
  else
    let s := max a.scale b.scale
    let ua := a.unscaled * 10 ^ (s - a.scale).toNat
    let ub := b.unscaled * 10 ^ (s - b.scale).toNat
    if ua < ub then -1 else if ub < ua then 1 else 0

def isEqual (a b : MMREntryNumber) : Bool := a.compareTo b == 0

def isLessEqual (a b : MMREntryNumber) : Bool := a.compareTo b ≤ 0

/-- `modulo`: the remainder of the quotient truncated towards zero. The only divisor in use is
`two`; the source throws on a zero divisor. -/
def modulo (a b : MMREntryNumber) : MMREntryNumber :=
  let exp := b.scale - a.scale
  let num := if 0 ≤ exp then a.unscaled * 10 ^ exp.toNat else a.unscaled
  let den := if 0 ≤ exp then b.unscaled else b.unscaled * 10 ^ (-exp).toNat
  let q := num.tdiv den
  let s := max a.scale b.scale
  ⟨a.unscaled * 10 ^ (s - a.scale).toNat - q * (b.unscaled * 10 ^ (s - b.scale).toNat), s⟩

/-- `floor`. -/
def floor (a : MMREntryNumber) : MMREntryNumber :=
  if a.scale ≤ 0 then ⟨a.unscaled * 10 ^ (-a.scale).toNat, 0⟩
  else
    let denom := (10 : ℤ) ^ a.scale.toNat
    let q := a.unscaled.tdiv denom
    if 0 ≤ a.unscaled ∨ a.unscaled.tmod denom = 0 then ⟨q, 0⟩ else ⟨q - 1, 0⟩

/-- `increment`. -/
def increment (a : MMREntryNumber) : MMREntryNumber :=
  let s := max a.scale 0
  ⟨a.unscaled * 10 ^ (s - a.scale).toNat + 10 ^ s.toNat, s⟩

/-- `decrement`. -/
def decrement (a : MMREntryNumber) : MMREntryNumber :=
  let s := max a.scale 0
  ⟨a.unscaled * 10 ^ (s - a.scale).toNat - 10 ^ s.toNat, s⟩

/-- `div2`: exact halving, by a shift or by a multiplication with five and one more place. -/
def div2 (a : MMREntryNumber) : MMREntryNumber :=
  if a.unscaled % 2 = 0 then { a with unscaled := a.unscaled / 2 }
  else ⟨a.unscaled * 5, a.scale + 1⟩

/-- `mult2`. -/
def mult2 (a : MMREntryNumber) : MMREntryNumber := { a with unscaled := a.unscaled * 2 }

/-- The width loop of `to_twos_complement_bytes`: the least `n ≥ 1` with `-2^(8n-1) ≤ value`. -/
def negativeWidth (v : ℤ) : ℕ → ℕ → ℕ
  | 0, n => n
  | fuel + 1, n => if -2 ^ (8 * n - 1) ≤ v then n else negativeWidth v fuel (n + 1)

/-- `to_twos_complement_bytes`. -/
def toTwosComplementBytes (v : ℤ) : List Byte :=
  if v = 0 then [0]
  else if 0 < v then positiveBytes v.natAbs
  else
    let n := negativeWidth v (byteWidth v.natAbs) 1
    bytesBE n (2 ^ (8 * n) - v.natAbs)

/-- `writeDataStream`: the scale as a `MiniNumber`, the unscaled part as a `MiniData`. -/
def writeDataStream (x : MMREntryNumber) : List Byte :=
  (MiniNumber.ofInt x.scale).writeDataStream ++
    (MiniData.mk (toTwosComplementBytes x.unscaled)).writeDataStream

/-- `readDataStream`. -/
def readDataStream : Reader MMREntryNumber := do
  let scale ← MiniNumber.getAsInt <$> MiniNumber.readDataStream
  let unscaleddata ← MiniData.readDataStream
  return ⟨ofSigned unscaleddata.bytes, scale⟩

/-- `compare_values` is the sign of the difference of the two numbers. -/
theorem compareTo_eq (a b : MMREntryNumber) :
    a.compareTo b = if a.toRat < b.toRat then -1 else if b.toRat < a.toRat then 1 else 0 := by
  have ha := value_rescale_to a.unscaled (le_max_left a.scale b.scale)
  have hb := value_rescale_to b.unscaled (le_max_right a.scale b.scale)
  unfold compareTo
  by_cases h0 : a.unscaled = 0 ∧ b.unscaled = 0
  · simp [toRat, h0.1, h0.2]
  · rw [if_neg h0, toRat, toRat, ← ha, ← hb]
    simp only [value_lt_value]

/-- Entry numbers are compared as numbers, whatever their scales. -/
theorem isEqual_iff (a b : MMREntryNumber) : a.isEqual b = true ↔ a.toRat = b.toRat := by
  rw [isEqual, beq_iff_eq, compareTo_eq]
  split_ifs with h1 h2
  · simpa using h1.ne
  · simpa using h2.ne'
  · simpa using le_antisymm (not_lt.mp h2) (not_lt.mp h1)

theorem isLessEqual_iff (a b : MMREntryNumber) : a.isLessEqual b = true ↔ a.toRat ≤ b.toRat := by
  rw [isLessEqual, decide_eq_true_eq, compareTo_eq]
  split_ifs with h1 h2
  · simpa using h1.le
  · simpa using h2
  · simpa using h2

@[simp] theorem toRat_ofNat (n : ℕ) : (ofNat n).toRat = n := by simp [toRat, ofNat, ofInt]

@[simp] theorem ofNat_isEqual (m n : ℕ) : (ofNat m).isEqual (ofNat n) = decide (m = n) := by
  rw [Bool.eq_iff_iff, isEqual_iff, decide_eq_true_eq, toRat_ofNat, toRat_ofNat, Nat.cast_inj]

@[simp] theorem ofNat_isLessEqual (m n : ℕ) :
    (ofNat m).isLessEqual (ofNat n) = decide (m ≤ n) := by
  rw [Bool.eq_iff_iff, isLessEqual_iff, decide_eq_true_eq, toRat_ofNat, toRat_ofNat, Nat.cast_le]

theorem ofNat_injective {m n : ℕ} (h : ofNat m = ofNat n) : m = n := by
  simpa [ofNat, ofInt] using h

@[simp] theorem ofNat_increment (n : ℕ) : (ofNat n).increment = ofNat (n + 1) := by
  simp [increment, ofNat, ofInt]

theorem ofNat_decrement {n : ℕ} (h : 0 < n) : (ofNat n).decrement = ofNat (n - 1) := by
  simp only [decrement, ofNat, ofInt, max_self, sub_self, Int.toNat_zero, pow_zero, mul_one]
  congr 1
  omega

@[simp] theorem ofNat_mult2 (n : ℕ) : (ofNat n).mult2 = ofNat (2 * n) := by
  simp [mult2, ofNat, ofInt, mul_comm]

/-- Halving and rounding down. -/
@[simp] theorem ofNat_div2_floor (n : ℕ) : (ofNat n).div2.floor = ofNat (n / 2) := by
  unfold div2
  by_cases h : ((ofNat n).unscaled) % 2 = 0
  · rw [if_pos h]
    simp [floor, ofNat, ofInt]
  · -- `5n / 10` with the remainder dropped
    rw [if_neg h]
    have hn : 0 ≤ (n : ℤ) * 5 := by positivity
    simp only [floor, ofNat, ofInt, zero_add, Int.toNat_one, pow_one]
    rw [if_neg (by norm_num), if_pos (Or.inl hn), Int.tdiv_eq_ediv_of_nonneg hn]
    congr 1
    omega

@[simp] theorem ofNat_modulo_two_isEqual_zero (n : ℕ) :
    ((ofNat n).modulo two).isEqual zero = decide (n % 2 = 0) := by
  have h : (ofNat n).modulo two = ofNat (n % 2) := by
    simp only [modulo, ofNat, ofInt, two, sub_self, le_refl, if_true, Int.toNat_zero, pow_zero,
      mul_one, max_self]
    rw [Int.tdiv_eq_ediv_of_nonneg (by positivity)]
    congr 1
    omega
  rw [h, show zero = ofNat 0 from rfl, ofNat_isEqual]

end MMREntryNumber

/-! ## Node data -/

/-- `MMRData`: the hash of a node and the sum of the values under it. Every constructor copies the
value, so that it meets the limits of `MiniNumber`. -/
@[ext]
structure MMRData where
  data : MiniData
  value : MiniNumber
  unspendable : Bool
  canonical : value.Canonical
  deriving DecidableEq

namespace MMRData

instance : Inhabited MMRData := ⟨⟨⟨[]⟩, .zero, false, MiniNumber.canonical_zero⟩⟩

/-- The constructor from a hash and a value: the value is copied, the flag starts as `false`. -/
def make (hash : MiniData) (value : MiniNumber) : Result MMRData :=
  match h : value.copy with
  | .ok v => .ok ⟨hash, v, false, MiniNumber.copy_canonical h⟩
  | .error e => .error e

/-- `Clone`: hash and value are copied, the unspendable flag is not. -/
def clone (d : MMRData) : MMRData := { d with unspendable := false }

/-- `isEqual`: the same hash and numerically the same value. -/
def isEqual (a b : MMRData) : Bool := a.data.isEqual b.data && a.value.isEqual b.value

/-- `CreateMMRDataLeafNode`: the hash of `0`, the object and the value. The object is given by its
encoding, which may throw. -/
def createMMRDataLeafNode (C : Crypto) (data : Result (List Byte)) (sumValue : MiniNumber) :
    Result MMRData := do
  let sumcopy ← sumValue.copy
  let hash := C.hashAllObjects
    [.ok MiniNumber.zero.writeDataStream, data, .ok sumcopy.writeDataStream]
  make hash sumValue

/-- `CreateMMRDataParentNode`: the hash of `1`, both hashes and the sum of the values. -/
def createMMRDataParentNode (C : Crypto) (left right : MMRData) : Result MMRData := do
  let sumvalue ← left.value.add right.value
  let combinedhash := C.hashAllObjects
    [.ok MiniNumber.one.writeDataStream, .ok left.data.writeDataStream,
      .ok right.data.writeDataStream, .ok sumvalue.writeDataStream]
  make combinedhash sumvalue

/-- `writeDataStream`: the hash, then the value. -/
def writeDataStream (d : MMRData) : Result (List Byte) := do
  let h ← d.data.writeHashToStream
  return h ++ d.value.writeDataStream

/-- `readDataStream`: the value is copied into the object. -/
def readDataStream : Reader MMRData := do
  let md ← MiniData.readHashFromStream
  let mv ← MiniNumber.readDataStream
  Reader.lift (make md mv)

@[simp] theorem clone_data (d : MMRData) : d.clone.data = d.data := rfl

@[simp] theorem clone_value (d : MMRData) : d.clone.value = d.value := rfl

@[simp] theorem clone_unspendable (d : MMRData) : d.clone.unspendable = false := rfl

@[simp] theorem clone_clone (d : MMRData) : d.clone.clone = d.clone := rfl

theorem clone_eq_self {d : MMRData} (h : d.unspendable = false) : d.clone = d := by
  cases d
  simp_all [clone]

@[simp] theorem isEqual_iff (a b : MMRData) :
    a.isEqual b = true ↔ a.data = b.data ∧ a.value.toRat = b.value.toRat := by
  simp [isEqual]

/-- Constructing from a canonical value returns hash and value as they are. -/
theorem make_of_canonical (hash : MiniData) {v : MiniNumber} (h : v.Canonical) :
    make hash v = .ok ⟨hash, v, false, h⟩ := by
  unfold make
  have hcopy := MiniNumber.copy_of_canonical h
  split
  · next w hw =>
    rw [hcopy, Except.ok.injEq] at hw
    subst hw
    rfl
  · next e he =>
    rw [hcopy] at he
    exact absurd he (by simp)

/-- Reconstructing from hash and value is cloning. -/
theorem make_eq_clone (d : MMRData) : make d.data d.value = .ok d.clone := by
  rw [make_of_canonical d.data d.canonical]
  rfl

theorem make_eq_ok {hash : MiniData} {v : MiniNumber} {d : MMRData} (h : make hash v = .ok d) :
    d.data = hash ∧ v.copy = .ok d.value ∧ d.unspendable = false := by
  unfold make at h
  split at h
  · next w hw =>
    rw [Except.ok.injEq] at h
    subst h
    exact ⟨rfl, hw, rfl⟩
  · exact absurd h (by simp)

/-- **What a parent node is:** its value is the sum, its hash commits to both hashes and the sum. -/
theorem createMMRDataParentNode_eq_ok {C : Crypto} {l r p : MMRData} :
    createMMRDataParentNode C l r = .ok p ↔
      l.value.add r.value = .ok p.value ∧
      p.data = C.hashAllObjects [.ok MiniNumber.one.writeDataStream, .ok l.data.writeDataStream,
        .ok r.data.writeDataStream, .ok p.value.writeDataStream] ∧
      p.unspendable = false := by
  unfold createMMRDataParentNode
  rw [Result.bind_eq_ok]
  constructor
  · rintro ⟨s, hs, h⟩
    rw [make_of_canonical _ (MiniNumber.add_canonical hs), Except.ok.injEq] at h
    subst h
    exact ⟨hs, rfl, rfl⟩
  · rintro ⟨hs, hd, hu⟩
    refine ⟨p.value, hs, ?_⟩
    rw [make_of_canonical _ p.canonical, ← hd]
    cases p
    simp_all

/-- A parent node depends on hash and value of its children only. -/
@[simp] theorem createMMRDataParentNode_clone (C : Crypto) (l r : MMRData) :
    createMMRDataParentNode C l.clone r.clone = createMMRDataParentNode C l r := rfl

theorem createMMRDataParentNode_clone_eq {C : Crypto} {l r p : MMRData}
    (h : createMMRDataParentNode C l r = .ok p) : p.clone = p :=
  clone_eq_self (createMMRDataParentNode_eq_ok.mp h).2.2

end MMRData

/-! ## Entries -/

/-- `MMREntry`. An empty entry answers a lookup that found nothing; it has no data. -/
structure MMREntry where
  row : ℤ
  entryNumber : MMREntryNumber
  mmrData : Option MMRData
  isEmpty : Bool
  deriving DecidableEq

namespace MMREntry

/-- The constructor of an empty entry. -/
def empty (row : ℤ) (e : MMREntryNumber) : MMREntry := ⟨row, e, none, true⟩

/-- The constructor with data, which it clones. -/
def make (row : ℤ) (e : MMREntryNumber) (d : MMRData) : MMREntry := ⟨row, e, some d.clone, false⟩

/-- The copy constructor: the data is reconstructed, which drops the unspendable flag. -/
def copy (x : MMREntry) : MMREntry := { x with mmrData := x.mmrData.map MMRData.clone }

/-- `*getMMRData()`: undefined on an entry without data. -/
def getMMRData (x : MMREntry) : Result MMRData :=
  match x.mmrData with
  | some d => .ok d
  | none => undefinedBehaviour "null MMRData"

/-- `writeDataStream`: an empty entry throws. -/
def writeDataStream (x : MMREntry) : Result (List Byte) :=
  match x.mmrData with
  | none =>
    throwException "MMREntry::writeDataStream mMMRData is null - cannot serialize empty entry"
  | some d => do
      let data ← d.writeDataStream
      return (MiniNumber.ofInt x.row).writeDataStream ++ x.entryNumber.writeDataStream ++ data

/-- `readDataStream`. -/
def readDataStream : Reader MMREntry := do
  let row ← MiniNumber.getAsInt <$> MiniNumber.readDataStream
  let entryNumber ← MMREntryNumber.readDataStream
  let data ← MMRData.readDataStream
  return ⟨row, entryNumber, some data, false⟩

/-- `checkPosition`. -/
def checkPosition (x y : MMREntry) : Bool := y.row == x.row && y.entryNumber.isEqual x.entryNumber

/-- `checkPosition` against several entries. -/
def checkPositionAny (x : MMREntry) (ys : List MMREntry) : Bool := ys.any x.checkPosition

def getParentRow (x : MMREntry) : ℤ := x.row + 1

def getChildRow (x : MMREntry) : ℤ := x.row - 1

def isLeft (x : MMREntry) : Bool :=
  (x.entryNumber.modulo MMREntryNumber.two).isEqual MMREntryNumber.zero

def isRight (x : MMREntry) : Bool := !x.isLeft

def getSibling (x : MMREntry) : MMREntryNumber :=
  if x.isLeft then x.entryNumber.increment else x.entryNumber.decrement

def getParentEntry (x : MMREntry) : MMREntryNumber := x.entryNumber.div2.floor

def getLeftChildEntry (x : MMREntry) : MMREntryNumber := x.entryNumber.mult2

def getRightChildEntry (x : MMREntry) : MMREntryNumber := x.getLeftChildEntry.increment

@[simp] theorem make_row (r : ℤ) (e : MMREntryNumber) (d : MMRData) : (make r e d).row = r := rfl

@[simp] theorem make_entryNumber (r : ℤ) (e : MMREntryNumber) (d : MMRData) :
    (make r e d).entryNumber = e := rfl

@[simp] theorem make_mmrData (r : ℤ) (e : MMREntryNumber) (d : MMRData) :
    (make r e d).mmrData = some d.clone := rfl

@[simp] theorem make_isEmpty (r : ℤ) (e : MMREntryNumber) (d : MMRData) :
    (make r e d).isEmpty = false := rfl

@[simp] theorem copy_row (x : MMREntry) : x.copy.row = x.row := rfl

@[simp] theorem copy_entryNumber (x : MMREntry) : x.copy.entryNumber = x.entryNumber := rfl

@[simp] theorem copy_isEmpty (x : MMREntry) : x.copy.isEmpty = x.isEmpty := rfl

@[simp] theorem copy_make (r : ℤ) (e : MMREntryNumber) (d : MMRData) :
    (make r e d).copy = make r e d := rfl

@[simp] theorem getMMRData_make (r : ℤ) (e : MMREntryNumber) (d : MMRData) :
    (make r e d).getMMRData = .ok d.clone := rfl

theorem getMMRData_eq_ok {x : MMREntry} {d : MMRData} :
    x.getMMRData = .ok d ↔ x.mmrData = some d := by
  unfold getMMRData
  cases x.mmrData with
  | none => simp [undefinedBehaviour]
  | some d' => simp

theorem isLeft_of_ofNat {x : MMREntry} {k : ℕ} (h : x.entryNumber = .ofNat k) :
    x.isLeft = decide (k % 2 = 0) := by
  rw [isLeft, h, MMREntryNumber.ofNat_modulo_two_isEqual_zero]

theorem getSibling_of_ofNat {x : MMREntry} {k : ℕ} (h : x.entryNumber = .ofNat k) :
    x.getSibling = .ofNat (MountainRange.sibling k) := by
  rw [getSibling, isLeft_of_ofNat h, h, MountainRange.sibling]
  by_cases hk : k % 2 = 0
  · simp [hk]
  · simp only [hk, decide_false, Bool.false_eq_true, if_false]
    exact MMREntryNumber.ofNat_decrement (by omega)

theorem getParentEntry_of_ofNat {x : MMREntry} {k : ℕ} (h : x.entryNumber = .ofNat k) :
    x.getParentEntry = .ofNat (k / 2) := by
  rw [getParentEntry, h, MMREntryNumber.ofNat_div2_floor]

end MMREntry

end Minima
