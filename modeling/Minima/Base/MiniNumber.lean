import Minima.Base.MiniData
import Minima.Lib.Decimal
import Minima.Lib.TwosComplement

/-! # `MiniNumber`: decimals with 64 digits and 44 decimal places

`MiniNumber` is the number type of the node: amounts, block numbers, weights and scales. It is a
decimal `m_unscaled · 10^(-m_scale)` kept inside three limits: 64 significant digits (the rest is
truncated towards zero), 44 decimal places (likewise), and `|value| ≤ 2^256 − 1` (beyond, it throws).

* **`MiniNumber.add`**, **`MiniNumber.sub`** — exact addition, then the limits.
* **`MiniNumber.copy`** — the copy constructor, which applies the limits again.
* **`MiniNumber.Canonical`** — the numbers that satisfy all limits; every computed or copied number
  does (`copy_canonical`, `add_canonical`), a number read from a stream need not.
* **`add_toRat`** — addition is exact on amounts below `10^20`. -/

namespace Minima

open Decimal TwosComplement

/-- `MiniNumber`: the decimal `unscaled · 10^(-scale)`. -/
structure MiniNumber where
  unscaled : ℤ
  scale : ℤ
  deriving DecidableEq, Repr, Inhabited

namespace MiniNumber

/-- `MAX_DIGITS`. -/
def maxDigits : ℕ := 64

/-- `MAX_DECIMAL_PLACES`. -/
def maxDecimalPlaces : ℤ := 44

/-- `get_max_value`: `2^256 − 1`. -/
def maxValue : ℤ := 2 ^ 256 - 1

/-- `get_min_value`. -/
def minValue : ℤ := -maxValue

/-- The number of an `int`, a `long long` or a vector size: no limit touches it. -/
def ofInt (n : ℤ) : MiniNumber := ⟨n, 0⟩

def zero : MiniNumber := ofInt 0

def one : MiniNumber := ofInt 1

def minusOne : MiniNumber := ofInt (-1)

def two : MiniNumber := ofInt 2

def eight : MiniNumber := ofInt 8

def thousand : MiniNumber := ofInt 1000

/-- `BILLION`, parsed from `"1E9"`. -/
def billion : MiniNumber := ⟨1, -9⟩

/-- The rational a `MiniNumber` stands for. -/
def toRat (x : MiniNumber) : ℚ := value x.unscaled x.scale

@[simp] theorem toRat_ofInt (n : ℤ) : (ofInt n).toRat = n := by simp [toRat, ofInt]

@[simp] theorem toRat_zero : zero.toRat = 0 := by simp [zero]

@[simp] theorem toRat_one : one.toRat = 1 := by simp [one]

@[simp] theorem toRat_billion : billion.toRat = 10 ^ 9 := by
  norm_num [toRat, billion, value]

/-! ## Limits -/

/-- `pow10`. -/
def pow10 (n : ℕ) : ℤ := 10 ^ n

/-- `normalize_zero`: zero has scale zero. -/
def normalizeZero (x : MiniNumber) : MiniNumber := if x.unscaled = 0 then { x with scale := 0 } else x

/-- `apply_precision_down`: at most `precision` digits, truncating towards zero. -/
def applyPrecisionDown (x : MiniNumber) (precision : ℕ) : MiniNumber :=
  if precision = 0 then ⟨0, 0⟩
  else
    let digits := Decimal.digits x.unscaled
    if precision < digits then
      let k := digits - precision
      normalizeZero ⟨x.unscaled.tdiv (pow10 k), x.scale - k⟩
    else normalizeZero x

/-- `apply_math_context_default`. -/
def applyMathContextDefault (x : MiniNumber) : MiniNumber := applyPrecisionDown x maxDigits

/-- `enforce_max_decimal_places`: at most 44 decimal places, truncating towards zero. -/
def enforceMaxDecimalPlaces (x : MiniNumber) : MiniNumber :=
  if maxDecimalPlaces < x.scale then
    let k := (x.scale - maxDecimalPlaces).toNat
    normalizeZero ⟨x.unscaled.tdiv (pow10 k), maxDecimalPlaces⟩
  else x

/-- `align_scales`: both unscaled parts at the larger scale. -/
def alignScales (a b : MiniNumber) : ℤ × ℤ × ℤ :=
  if a.scale = b.scale then (a.unscaled, b.unscaled, a.scale)
  else if b.scale < a.scale then
    (a.unscaled, b.unscaled * pow10 (a.scale - b.scale).toNat, a.scale)
  else (a.unscaled * pow10 (b.scale - a.scale).toNat, b.unscaled, b.scale)

/-- `compare_values`: −1, 0 or 1. -/
def compareValues (ua sa ub sb : ℤ) : ℤ :=
  if sa = sb then (if ua < ub then -1 else if ub < ua then 1 else 0)
  else
    let (uaa, ubb, _) := alignScales ⟨ua, sa⟩ ⟨ub, sb⟩
    if uaa < ubb then -1 else if ubb < uaa then 1 else 0

/-- `checkLimits`: truncates to 44 decimal places and throws outside `±(2^256 − 1)`. -/
def checkLimits (x : MiniNumber) : Result MiniNumber :=
  let y := enforceMaxDecimalPlaces x
  if compareValues y.unscaled y.scale maxValue 0 > 0 then
    throwException "MiniNumber too large - outside allowed range 2^64 "
  else if compareValues y.unscaled y.scale minValue 0 < 0 then
    throwException "MiniNumber too small - outside allowed range -(2^64)"
  else .ok y

/-- The copy constructor and the copy assignment: both apply the limits again. -/
def copy (x : MiniNumber) : Result MiniNumber := checkLimits (applyMathContextDefault x)

/-- `add`. -/
def add (a b : MiniNumber) : Result MiniNumber :=
  let (ua, ub, sc) := alignScales a b
  checkLimits (applyMathContextDefault ⟨ua + ub, sc⟩)

/-- `sub`. -/
def sub (a b : MiniNumber) : Result MiniNumber :=
  let (ua, ub, sc) := alignScales a b
  checkLimits (applyMathContextDefault ⟨ua - ub, sc⟩)

/-- `mult`. -/
def mult (a b : MiniNumber) : Result MiniNumber :=
  checkLimits (applyMathContextDefault ⟨a.unscaled * b.unscaled, a.scale + b.scale⟩)

/-- How often the loop of `pow10` turns in a division: `other.m_scale + t` cast to an `unsigned int`. -/
def divTurns (b : MiniNumber) : ℕ := ((b.scale + (maxDigits + 2)) % 2 ^ 32).toNat

/-- `div`, which is `divide_with_context`: 66 more digits, cut off, and then the math context. -/
def div (a b : MiniNumber) : Result MiniNumber :=
  if b.unscaled = 0 then throwException "Division by zero"
  else checkLimits (applyMathContextDefault
    ⟨(a.unscaled * pow10 (divTurns b)).tdiv b.unscaled, a.scale + (maxDigits + 2)⟩)

/-- `multBigInteger`: the exact product with an integer, cut towards zero. -/
def multBigInteger (a : MiniNumber) (zValue : ℤ) : ℤ :=
  let prod := zValue * a.unscaled
  if a.scale ≤ 0 then prod * pow10 (-a.scale).toNat else prod.tdiv (pow10 a.scale.toNat)

/-- The `while` loop of `pow`, which squares `base` for every bit of the exponent. The fuel bounds the
number of bits. -/
def powLoop : ℕ → MiniNumber → MiniNumber → ℕ → Result MiniNumber
  | 0, _, result, _ => .ok result
  | fuel + 1, base, result, e => do
    if e = 0 then return result
    let result ← if e % 2 = 1 then result.mult base else .ok result
    let base ← if e / 2 = 0 then .ok base else base.mult base
    powLoop fuel base result (e / 2)

/-- `pow` with an exponent that is not negative; an `int` has 31 bits. -/
def pow (a : MiniNumber) (zNumber : ℕ) : Result MiniNumber := do
  if zNumber = 0 then return one
  let result ← powLoop 31 a one zNumber
  checkLimits (applyMathContextDefault result)

/-- `setSignificantDigits`. -/
def setSignificantDigits (a : MiniNumber) (zSignificantDigits : ℕ) : Result MiniNumber :=
  if maxDigits < zSignificantDigits then
    throwException "Cannot specify this many significant digits"
  else checkLimits (applyPrecisionDown a zSignificantDigits)

/-- `increment`. -/
def increment (a : MiniNumber) : Result MiniNumber := a.add one

/-- `decrement`. -/
def decrement (a : MiniNumber) : Result MiniNumber := a.sub one

/-! ## Comparison -/

/-- `compareTo`. -/
def compareTo (a b : MiniNumber) : ℤ :=
  let negA := decide (a.unscaled < 0)
  let negB := decide (b.unscaled < 0)
  if negA ≠ negB then (if negA then -1 else 1)
  else
    let cmp := compareValues |a.unscaled| a.scale |b.unscaled| b.scale
    let cmp := if negA && negB then -cmp else cmp
    if a.unscaled = 0 ∧ b.unscaled = 0 then 0 else cmp

def isEqual (a b : MiniNumber) : Bool := a.compareTo b == 0

def isLess (a b : MiniNumber) : Bool := a.compareTo b < 0

def isLessEqual (a b : MiniNumber) : Bool := a.compareTo b ≤ 0

def isMore (a b : MiniNumber) : Bool := a.compareTo b > 0

def isMoreEqual (a b : MiniNumber) : Bool := a.compareTo b ≥ 0

/-- `isValidMinimaValue`: more than zero and at most a billion. -/
def isValidMinimaValue (a : MiniNumber) : Bool := a.isLessEqual billion && a.isMore zero

/-- `getAsBigInteger`: the integer part, towards zero. -/
def getAsBigInteger (a : MiniNumber) : ℤ :=
  if a.scale ≤ 0 then a.unscaled * pow10 (-a.scale).toNat
  else a.unscaled.tdiv (pow10 a.scale.toNat)

/-- `getAsInt`: the integer part, clamped to an `int`. -/
def getAsInt (a : MiniNumber) : ℤ := max (-2 ^ 31) (min (2 ^ 31 - 1) a.getAsBigInteger)

theorem getAsInt_lt (a : MiniNumber) : a.getAsInt < 2 ^ 31 := by
  unfold getAsInt
  omega

/-! ## Streams -/

/-- `to_twos_complement_bytes`. -/
def toTwosComplementBytes (v : ℤ) : List Byte :=
  if v = 0 then [0]
  else if 0 < v then positiveBytes v.natAbs
  else
    let nbits := Nat.log 2 v.natAbs + 1
    let b := (nbits + 1 + 7) / 8
    let out := bytesBE b (2 ^ (8 * b) - v.natAbs)
    if negativeHead out then out else 0xFF :: out

/-- The low byte of an integer: the cast to `int8_t` that the stream writes. -/
def int8Byte (v : ℤ) : Byte := UInt8.ofNat (v % 256).toNat

/-- The value of a byte read as `int8_t`. -/
def ofInt8 (b : Byte) : ℤ := if b.toNat < 128 then b.toNat else (b.toNat : ℤ) - 256

/-- `writeDataStream`: scale byte, length byte, then the unscaled part in two's complement. -/
def writeDataStream (x : MiniNumber) : List Byte :=
  let bytes := toTwosComplementBytes x.unscaled
  int8Byte x.scale :: int8Byte bytes.length :: bytes

/-! ## What the comparisons compute -/

@[simp] theorem pow10_eq (n : ℕ) : pow10 n = 10 ^ n := rfl

/-- Aligning keeps both numbers, at the larger of the two scales. -/
theorem alignScales_spec (a b : MiniNumber) :
    value (alignScales a b).1 (alignScales a b).2.2 = a.toRat ∧
      value (alignScales a b).2.1 (alignScales a b).2.2 = b.toRat ∧
      (alignScales a b).2.2 = max a.scale b.scale := by
  unfold alignScales toRat
  split_ifs with h1 h2
  · exact ⟨rfl, by rw [h1], by rw [h1, max_self]⟩
  · exact ⟨rfl, value_rescale_to b.unscaled h2.le, (max_eq_left h2.le).symm⟩
  · have h3 : a.scale ≤ b.scale := not_lt.mp h2
    exact ⟨value_rescale_to a.unscaled h3, rfl, (max_eq_right h3).symm⟩

/-- `compare_values` is the sign of the difference of the two numbers. -/
theorem compareValues_eq (ua sa ub sb : ℤ) :
    compareValues ua sa ub sb =
      if value ua sa < value ub sb then -1 else if value ub sb < value ua sa then 1 else 0 := by
  unfold compareValues
  by_cases h : sa = sb
  · subst h
    simp [value_lt_value]
  · obtain ⟨ha, hb, -⟩ := alignScales_spec ⟨ua, sa⟩ ⟨ub, sb⟩
    rw [if_neg h]
    simp only [toRat] at ha hb
    rw [← ha, ← hb]
    simp only [value_lt_value]

/-- **`compareTo` is the sign of the difference of the two numbers.** -/
theorem compareTo_eq (a b : MiniNumber) :
    a.compareTo b = if a.toRat < b.toRat then -1 else if b.toRat < a.toRat then 1 else 0 := by
  have ha : a.toRat < 0 ↔ a.unscaled < 0 := value_lt_zero_iff _ _
  have hb : b.toRat < 0 ↔ b.unscaled < 0 := value_lt_zero_iff _ _
  have habs : ∀ x : MiniNumber, value |x.unscaled| x.scale = |x.toRat| := fun x =>
    (abs_value _ _).symm
  unfold compareTo
  simp only [compareValues_eq, habs]
  by_cases hna : a.unscaled < 0 <;> by_cases hnb : b.unscaled < 0
  · -- both negative: the absolute values compare the other way round
    have h1 := ha.mpr hna
    have h2 := hb.mpr hnb
    have h3 : ¬ (a.unscaled = 0 ∧ b.unscaled = 0) := by omega
    rw [abs_of_neg h1, abs_of_neg h2]
    simp only [hna, hnb, neg_lt_neg_iff, h3, decide_true, ne_eq, not_true_eq_false, if_false,
      Bool.and_self, if_true]
    split_ifs with h4 h5
    · exact absurd h4 (not_lt.mpr h5.le)
    all_goals norm_num
  · have h1 := ha.mpr hna
    have h2 : 0 ≤ b.toRat := not_lt.mp (mt hb.mp hnb)
    simp [hna, hnb, lt_of_lt_of_le h1 h2]
  · have h1 : 0 ≤ a.toRat := not_lt.mp (mt ha.mp hna)
    have h2 := hb.mpr hnb
    have h3 := lt_of_lt_of_le h2 h1
    simp [hna, hnb, h3, not_lt.mpr h3.le]
  · have h1 : 0 ≤ a.toRat := not_lt.mp (mt ha.mp hna)
    have h2 : 0 ≤ b.toRat := not_lt.mp (mt hb.mp hnb)
    rw [abs_of_nonneg h1, abs_of_nonneg h2]
    by_cases h0 : a.unscaled = 0 ∧ b.unscaled = 0
    · simp [toRat, h0.1, h0.2]
    · simp [hna, hnb, h0]

@[simp] theorem isEqual_iff (a b : MiniNumber) : a.isEqual b = true ↔ a.toRat = b.toRat := by
  rw [isEqual, beq_iff_eq, compareTo_eq]
  split_ifs with h1 h2
  · simpa using h1.ne
  · simpa using h2.ne'
  · simpa using le_antisymm (not_lt.mp h2) (not_lt.mp h1)

@[simp] theorem isLess_iff (a b : MiniNumber) : a.isLess b = true ↔ a.toRat < b.toRat := by
  rw [isLess, decide_eq_true_eq, compareTo_eq]
  split_ifs with h1 h2
  · simpa using h1
  · simpa using h2.le
  · simpa using h1

@[simp] theorem isMore_iff (a b : MiniNumber) : a.isMore b = true ↔ b.toRat < a.toRat := by
  rw [isMore, decide_eq_true_eq, compareTo_eq]
  split_ifs with h1 h2
  · simpa using h1.le
  · simpa using h2
  · simpa using h2

theorem compareTo_pos (a b : MiniNumber) : a.compareTo b > 0 ↔ b.toRat < a.toRat := by
  rw [← isMore_iff, isMore, decide_eq_true_eq]

@[simp] theorem isLessEqual_iff (a b : MiniNumber) : a.isLessEqual b = true ↔ a.toRat ≤ b.toRat := by
  rw [isLessEqual, decide_eq_true_eq, compareTo_eq]
  split_ifs with h1 h2
  · simpa using h1.le
  · simpa using h2
  · simpa using h2

@[simp] theorem isMoreEqual_iff (a b : MiniNumber) : a.isMoreEqual b = true ↔ b.toRat ≤ a.toRat := by
  rw [isMoreEqual, decide_eq_true_eq, compareTo_eq]
  split_ifs with h1 h2
  · simpa using h1
  · simpa using h2.le
  · simpa using h1

theorem isValidMinimaValue_iff (a : MiniNumber) :
    a.isValidMinimaValue = true ↔ 0 < a.toRat ∧ a.toRat ≤ 10 ^ 9 := by
  simp [isValidMinimaValue, and_comm]

/-! ## What the limits do -/

@[simp] theorem toRat_normalizeZero (x : MiniNumber) : x.normalizeZero.toRat = x.toRat := by
  unfold normalizeZero
  split_ifs with h0
  · rw [toRat, toRat, h0, value_zero_left, value_zero_left]
  · rfl

/-- The math context is truncation to 64 digits. -/
theorem applyMathContextDefault_eq (x : MiniNumber) :
    x.applyMathContextDefault =
      ⟨(keepDigits maxDigits x.unscaled x.scale).1, (keepDigits maxDigits x.unscaled x.scale).2⟩ := by
  unfold applyMathContextDefault applyPrecisionDown
  rw [if_neg (by decide)]
  simp only [normalizeZero, pow10_eq, keepDigits]
  by_cases h1 : maxDigits < Decimal.digits x.unscaled
  · rw [if_pos h1]
    split_ifs with h2
    · simp [h2]
    · simp [h2]
  · rw [if_neg h1, Nat.sub_eq_zero_of_le (not_lt.mp h1), pow_zero, Int.tdiv_one]
    split_ifs <;> simp

/-- **The numbers inside every limit.** -/
structure Canonical (x : MiniNumber) : Prop where
  digits : |x.unscaled| < 10 ^ maxDigits
  places : x.scale ≤ maxDecimalPlaces
  zero_scale : x.unscaled = 0 → x.scale = 0
  bound : |x.toRat| ≤ maxValue

theorem canonical_zero : Canonical zero := by
  constructor <;> norm_num [zero, ofInt, maxDigits, maxDecimalPlaces, toRat, maxValue]

theorem canonical_one : Canonical one := by
  constructor <;> norm_num [one, ofInt, maxDigits, maxDecimalPlaces, toRat, maxValue]

theorem canonical_ten : Canonical (ofInt 10) := by
  constructor <;> norm_num [ofInt, maxDigits, maxDecimalPlaces, toRat, maxValue]

theorem canonical_ofNat {n : ℕ} (h : n < 10 ^ 64) : Canonical (ofInt n) := by
  have hdigits : |((n : ℕ) : ℤ)| < 10 ^ maxDigits := by
    rw [abs_of_nonneg (Int.natCast_nonneg n)]
    exact_mod_cast h
  have hplaces : (0 : ℤ) ≤ maxDecimalPlaces := by decide
  refine ⟨hdigits, hplaces, fun _ => rfl, ?_⟩
  have hbound : (n : ℤ) ≤ maxValue := by
    have hcast : (n : ℤ) < 10 ^ 64 := by exact_mod_cast h
    unfold maxValue
    omega
  rw [toRat_ofInt, Int.cast_natCast, abs_of_nonneg (Nat.cast_nonneg n)]
  exact_mod_cast hbound

/-- `checkLimits` returns the number cut to 44 places, provided that is inside the range. -/
theorem checkLimits_eq_ok {x y : MiniNumber} :
    checkLimits x = .ok y ↔ y = x.enforceMaxDecimalPlaces ∧ |y.toRat| ≤ maxValue := by
  have hmax : ∀ z : MiniNumber, compareValues z.unscaled z.scale maxValue 0 > 0 ↔
      (maxValue : ℚ) < z.toRat := by
    intro z
    rw [compareValues_eq, value_zero_right, toRat]
    split_ifs with h1 h2
    · simpa using h1.le
    · simpa using h2
    · simpa using h2
  have hmin : ∀ z : MiniNumber, compareValues z.unscaled z.scale minValue 0 < 0 ↔
      z.toRat < -(maxValue : ℚ) := by
    intro z
    rw [compareValues_eq, value_zero_right, toRat, minValue, Int.cast_neg]
    split_ifs with h1 h2
    · simpa using h1
    · simpa using h2.le
    · simpa using h1
  unfold checkLimits
  simp only [hmax, hmin]
  rw [abs_le]
  split_ifs with h1 h2
  · simp only [throwException_ne_ok, false_iff]
    rintro ⟨rfl, -, h⟩
    exact absurd h (not_le.mpr h1)
  · simp only [throwException_ne_ok, false_iff]
    rintro ⟨rfl, h, -⟩
    exact absurd h (not_le.mpr h2)
  · rw [Except.ok.injEq]
    constructor
    · rintro rfl
      exact ⟨rfl, not_lt.mp h2, not_lt.mp h1⟩
    · rintro ⟨rfl, -, -⟩
      rfl

/-- Cutting decimal places keeps the digit bound and never moves away from zero. -/
theorem enforceMaxDecimalPlaces_spec (x : MiniNumber) (hd : |x.unscaled| < 10 ^ maxDigits)
    (hz : x.unscaled = 0 → x.scale = 0) :
    let y := x.enforceMaxDecimalPlaces
    |y.unscaled| < 10 ^ maxDigits ∧ y.scale ≤ maxDecimalPlaces ∧ (y.unscaled = 0 → y.scale = 0) := by
  unfold enforceMaxDecimalPlaces
  split_ifs with h
  · set q := x.unscaled.tdiv (pow10 (x.scale - maxDecimalPlaces).toNat) with hq
    have hle : |q| ≤ |x.unscaled| := by
      rw [hq, Int.abs_eq_natAbs, Int.abs_eq_natAbs, Int.natAbs_tdiv]
      exact_mod_cast Nat.div_le_self _ _
    simp only [normalizeZero]
    split_ifs with h0
    · exact ⟨lt_of_le_of_lt hle hd, by simp [maxDecimalPlaces], fun _ => rfl⟩
    · exact ⟨lt_of_le_of_lt hle hd, le_rfl, fun h1 => absurd h1 h0⟩
  · exact ⟨hd, not_lt.mp h, hz⟩

/-- Whatever passes the math context and the limits is canonical. -/
theorem canonical_of_checked {x y : MiniNumber}
    (h : checkLimits (applyMathContextDefault x) = .ok y) : y.Canonical := by
  obtain ⟨rfl, hb⟩ := checkLimits_eq_ok.mp h
  have hd : |x.applyMathContextDefault.unscaled| < 10 ^ maxDigits := by
    rw [applyMathContextDefault_eq]
    exact abs_keepDigits_lt _ _ x.scale
  have hz : x.applyMathContextDefault.unscaled = 0 → x.applyMathContextDefault.scale = 0 := by
    rw [applyMathContextDefault_eq]
    intro h0
    simp only [keepDigits] at h0 ⊢
    rw [if_pos h0]
  obtain ⟨h1, h2, h3⟩ := enforceMaxDecimalPlaces_spec _ hd hz
  exact ⟨h1, h2, h3, hb⟩

theorem copy_canonical {x y : MiniNumber} (h : x.copy = .ok y) : y.Canonical := canonical_of_checked h

/-- Cutting digits and places never takes a number away from zero. -/
theorem abs_toRat_cut_le (x : MiniNumber) :
    |x.applyMathContextDefault.enforceMaxDecimalPlaces.toRat| ≤ |x.toRat| := by
  have hcontext : |x.applyMathContextDefault.toRat| ≤ |x.toRat| := by
    rw [applyMathContextDefault_eq]
    exact abs_value_keepDigits_le _ _ _
  refine le_trans ?_ hcontext
  set z := x.applyMathContextDefault
  unfold enforceMaxDecimalPlaces
  split_ifs with hp
  · have hk : z.scale - (z.scale - maxDecimalPlaces).toNat = maxDecimalPlaces := by omega
    have hcut := abs_value_tdiv_le z.unscaled z.scale (z.scale - maxDecimalPlaces).toNat
    rw [hk] at hcut
    rw [toRat_normalizeZero]
    exact hcut
  · exact le_rfl

/-- The limits never take a number away from zero. -/
theorem abs_toRat_checked_le {x y : MiniNumber} (h : checkLimits (applyMathContextDefault x) = .ok y) :
    |y.toRat| ≤ |x.toRat| := by
  obtain ⟨rfl, -⟩ := checkLimits_eq_ok.mp h
  exact abs_toRat_cut_le x

theorem add_canonical {a b c : MiniNumber} (h : a.add b = .ok c) : c.Canonical :=
  canonical_of_checked h

theorem sub_canonical {a b c : MiniNumber} (h : a.sub b = .ok c) : c.Canonical :=
  canonical_of_checked h

/-- The math context does nothing below 64 digits, except that it gives zero scale zero. -/
theorem applyMathContextDefault_of_lt {x : MiniNumber} (h : |x.unscaled| < 10 ^ maxDigits) :
    x.applyMathContextDefault = ⟨x.unscaled, if x.unscaled = 0 then 0 else x.scale⟩ := by
  rw [applyMathContextDefault_eq, keepDigits_of_lt h]

/-- **The limits leave a number alone when it meets them.** -/
theorem checked_of_fits {u s : ℤ} (hd : |u| < 10 ^ maxDigits) (hp : s ≤ maxDecimalPlaces)
    (hb : |value u s| ≤ maxValue) :
    checkLimits (applyMathContextDefault ⟨u, s⟩) = .ok ⟨u, if u = 0 then 0 else s⟩ := by
  rw [applyMathContextDefault_of_lt hd, checkLimits_eq_ok]
  simp only
  split_ifs with h0
  · subst h0
    exact ⟨rfl, by simp [toRat, maxValue]⟩
  · refine ⟨?_, hb⟩
    rw [enforceMaxDecimalPlaces, if_neg (not_lt.mpr hp)]

/-- **The limits keep the value of a number that some canonical number has.** -/
theorem checked_of_value {u s : ℤ} {x : MiniNumber} (hx : x.Canonical) (h : value u s = x.toRat) :
    ∃ m, checkLimits (applyMathContextDefault ⟨u, s⟩) = .ok m ∧ m.toRat = x.toRat := by
  have hcontext : (applyMathContextDefault ⟨u, s⟩).toRat = x.toRat := by
    rw [applyMathContextDefault_eq, ← h]
    exact value_keepDigits_of_eq hx.digits h
  set y := applyMathContextDefault ⟨u, s⟩
  have hplaces : y.enforceMaxDecimalPlaces.toRat = x.toRat := by
    unfold enforceMaxDecimalPlaces
    split_ifs with hp
    · have hk : y.scale - (y.scale - maxDecimalPlaces).toNat = maxDecimalPlaces := by omega
      have hcut := value_tdiv_of_eq (hk.symm ▸ hx.places) hcontext
      rw [hk] at hcut
      rw [← hcontext, toRat_normalizeZero]
      exact hcut
    · exact hcontext
  refine ⟨_, checkLimits_eq_ok.mpr ⟨rfl, ?_⟩, hplaces⟩
  rw [hplaces]
  exact hx.bound

/-- Copying a canonical number returns it. -/
theorem copy_of_canonical {x : MiniNumber} (h : x.Canonical) : x.copy = .ok x := by
  have := checked_of_fits h.digits h.places h.bound
  rw [copy]
  convert this using 2
  obtain ⟨u, s⟩ := x
  by_cases h0 : u = 0
  · have := h.zero_scale h0
    simp_all
  · simp [h0]

instance (x : MiniNumber) : Decidable x.Canonical :=
  decidable_of_iff (x.copy = .ok x) ⟨copy_canonical, copy_of_canonical⟩

/-- The sum of two canonical numbers below `10^20` fits in 64 digits at the common scale. -/
theorem alignScales_add_lt {a b : MiniNumber} (ha : a.Canonical) (hb : b.Canonical)
    (h : |a.toRat + b.toRat| < 10 ^ 20) :
    |(alignScales a b).1 + (alignScales a b).2.1| < 10 ^ maxDigits ∧
      (alignScales a b).2.2 ≤ maxDecimalPlaces := by
  obtain ⟨h1, h2, h3⟩ := alignScales_spec a b
  have hp : (alignScales a b).2.2 ≤ maxDecimalPlaces := h3 ▸ max_le ha.places hb.places
  refine ⟨?_, hp⟩
  rw [← h1, ← h2, ← value_add] at h
  set u := (alignScales a b).1 + (alignScales a b).2.1 with hu
  set s := (alignScales a b).2.2 with hs
  by_cases hs0 : 0 ≤ (20 : ℕ) + s
  · refine lt_of_lt_of_le (abs_lt_of_abs_value_lt hs0 h) ?_
    refine pow_le_pow_right₀ (by norm_num) ?_
    unfold maxDecimalPlaces at hp
    unfold maxDigits
    omega
  · -- a nonzero multiple of `10^21` would not be below `10^20`
    have hzero : u = 0 := by
      by_contra hne
      have hone : (1 : ℚ) ≤ |u| := by exact_mod_cast Int.one_le_abs hne
      have hz : (10 : ℚ) ^ (20 : ℤ) ≤ (10 : ℚ) ^ (-s) :=
        zpow_le_zpow_right₀ (by norm_num) (by push_cast at hs0; omega)
      rw [abs_value, value] at h
      have : (10 : ℚ) ^ (20 : ℤ) ≤ |u| * (10 : ℚ) ^ (-s) := by
        calc (10 : ℚ) ^ (20 : ℤ) = 1 * (10 : ℚ) ^ (20 : ℤ) := (one_mul _).symm
          _ ≤ |u| * (10 : ℚ) ^ (-s) := by gcongr
      norm_num at this h
      linarith
    simp [hzero, maxDigits]

theorem add_def (a b : MiniNumber) :
    a.add b = checkLimits (applyMathContextDefault
      ⟨(alignScales a b).1 + (alignScales a b).2.1, (alignScales a b).2.2⟩) := rfl

/-- **Addition is exact on amounts.** Two canonical numbers whose sum is below `10^20` add without
loss and without throwing. -/
theorem add_eq_ok {a b : MiniNumber} (ha : a.Canonical) (hb : b.Canonical)
    (h : |a.toRat + b.toRat| < 10 ^ 20) :
    ∃ c, a.add b = .ok c ∧ c.toRat = a.toRat + b.toRat := by
  obtain ⟨h1, h2, -⟩ := alignScales_spec a b
  obtain ⟨hd, hp⟩ := alignScales_add_lt ha hb h
  have hval : value ((alignScales a b).1 + (alignScales a b).2.1) (alignScales a b).2.2 =
      a.toRat + b.toRat := by rw [value_add, h1, h2]
  have hbound : |value ((alignScales a b).1 + (alignScales a b).2.1) (alignScales a b).2.2| ≤
      maxValue := by
    rw [hval]
    refine h.le.trans ?_
    norm_num [maxValue]
  set u := (alignScales a b).1 + (alignScales a b).2.1 with hu
  refine ⟨⟨u, if u = 0 then 0 else (alignScales a b).2.2⟩, ?_, ?_⟩
  · rw [add_def, ← hu]
    exact checked_of_fits hd hp hbound
  rw [← hval]
  by_cases h0 : u = 0
  · simp [toRat, h0]
  · simp [toRat, h0]

theorem add_toRat {a b c : MiniNumber} (ha : a.Canonical) (hb : b.Canonical)
    (h : |a.toRat + b.toRat| < 10 ^ 20) (hc : a.add b = .ok c) : c.toRat = a.toRat + b.toRat := by
  obtain ⟨c', hc', hv⟩ := add_eq_ok ha hb h
  rw [hc', Except.ok.injEq] at hc
  rw [← hc, hv]

theorem sub_def (a b : MiniNumber) :
    a.sub b = checkLimits (applyMathContextDefault
      ⟨(alignScales a b).1 - (alignScales a b).2.1, (alignScales a b).2.2⟩) := rfl

/-- A difference comes out no larger than it is. -/
theorem abs_sub_le {a b c : MiniNumber} (h : a.sub b = .ok c) :
    |c.toRat| ≤ |a.toRat - b.toRat| := by
  obtain ⟨h1, h2, -⟩ := alignScales_spec a b
  rw [sub_def] at h
  refine (abs_toRat_checked_le h).trans (le_of_eq ?_)
  rw [toRat, value_sub, h1, h2]

/-- A difference in range is calculated. -/
theorem exists_sub_eq_ok {a b : MiniNumber} (h : |a.toRat - b.toRat| ≤ maxValue) : ∃ c, a.sub b = .ok c := by
  obtain ⟨h1, h2, -⟩ := alignScales_spec a b
  rw [sub_def]
  refine ⟨_, checkLimits_eq_ok.mpr ⟨rfl, (abs_toRat_cut_le _).trans ?_⟩⟩
  rwa [toRat, value_sub, h1, h2]

/-- Whole numbers of up to 64 digits are inside the limits. -/
theorem checked_ofInt {u : ℤ} (h : |u| < 10 ^ 64) :
    checkLimits (applyMathContextDefault (ofInt u)) = .ok (ofInt u) := by
  have hb : |value u 0| ≤ maxValue := by
    rw [value_zero_right, ← Int.cast_abs]
    refine (Int.cast_le.mpr h.le).trans ?_
    norm_num [maxValue]
  have hfits := checked_of_fits h (show (0 : ℤ) ≤ maxDecimalPlaces by decide) hb
  rwa [ite_self] at hfits

/-- **Addition and subtraction are exact on whole numbers** of up to 64 digits. -/
theorem ofInt_add_ofInt {m n : ℤ} (h : |m + n| < 10 ^ 64) : (ofInt m).add (ofInt n) = .ok (ofInt (m + n)) :=
  checked_ofInt h

theorem ofInt_sub_ofInt {m n : ℤ} (h : |m - n| < 10 ^ 64) : (ofInt m).sub (ofInt n) = .ok (ofInt (m - n)) :=
  checked_ofInt h

/-- The integer part of a number up to `n` is at most `n`. -/
theorem getAsInt_le {a : MiniNumber} {n : ℕ} (h : a.toRat ≤ n) : a.getAsInt ≤ n := by
  have hbig : a.getAsBigInteger ≤ n := by
    rw [toRat] at h
    unfold getAsBigInteger
    split_ifs with hs
    · have hvalue := value_rescale_to a.unscaled hs
      rw [zero_sub, value_zero_right] at hvalue
      rw [← hvalue] at h
      exact_mod_cast h
    · obtain ⟨k, hk⟩ := Int.eq_ofNat_of_zero_le (not_le.mp hs).le
      rw [hk] at h ⊢
      rw [Int.toNat_natCast, pow10_eq]
      have hpos : (0 : ℚ) < 10 ^ k := by positivity
      have hle : (a.unscaled : ℚ) ≤ n * 10 ^ k := by
        rw [value, zpow_neg, zpow_natCast, ← div_eq_mul_inv, div_le_iff₀ hpos] at h
        exact h
      have hint : a.unscaled ≤ n * 10 ^ k := by exact_mod_cast hle
      rcases le_or_gt 0 a.unscaled with h0 | h0
      · rw [Int.tdiv_eq_ediv_of_nonneg h0]
        exact Int.ediv_le_of_le_mul (by positivity) hint
      · have hneg : 0 ≤ (-a.unscaled).tdiv (10 ^ k) := Int.tdiv_nonneg (by omega) (by positivity)
        rw [Int.neg_tdiv] at hneg
        omega
  unfold getAsInt
  omega

/-- The integer part of a number that is not negative is its floor. -/
theorem getAsBigInteger_eq_floor {a : MiniNumber} (h : 0 ≤ a.toRat) : a.getAsBigInteger = ⌊a.toRat⌋ := by
  have hu : 0 ≤ a.unscaled := not_lt.mp (mt (value_lt_zero_iff _ _).mpr (not_lt.mpr h))
  rw [toRat]
  unfold getAsBigInteger
  split_ifs with hs
  · have hvalue := value_rescale_to a.unscaled hs
    rw [zero_sub, value_zero_right] at hvalue
    rw [← hvalue, Int.floor_intCast, pow10_eq]
  · obtain ⟨k, hk⟩ := Int.eq_ofNat_of_zero_le (not_le.mp hs).le
    rw [hk, Int.toNat_natCast, pow10_eq, Int.tdiv_eq_ediv_of_nonneg hu, value, zpow_neg, zpow_natCast,
      ← div_eq_mul_inv]
    have hfloor := Rat.floor_intCast_div_natCast a.unscaled (10 ^ k)
    push_cast at hfloor
    exact hfloor.symm

/-- **The numbers that are never negative:** block numbers, block times, weights and totals. -/
structure IsNonneg (x : MiniNumber) : Prop where
  canonical : x.Canonical
  nonneg : 0 ≤ x.unscaled

theorem isNonneg_zero : IsNonneg zero := ⟨canonical_zero, le_rfl⟩

theorem isNonneg_one : IsNonneg one := ⟨canonical_one, by simp [one, ofInt]⟩

instance (x : MiniNumber) : Decidable x.IsNonneg :=
  decidable_of_iff (x.Canonical ∧ 0 ≤ x.unscaled) ⟨fun h => ⟨h.1, h.2⟩, fun h => ⟨h.1, h.2⟩⟩

theorem IsNonneg.toRat_nonneg {x : MiniNumber} (h : x.IsNonneg) : 0 ≤ x.toRat :=
  value_nonneg _ h.nonneg

/-- **The sum is the greatest number below the exact sum.** The 64-digit truncation takes `a.add b`
down, but never past a number that has room for itself in 64 digits. -/
theorem IsNonneg.add {a b c : MiniNumber} (ha : a.IsNonneg) (hb : b.IsNonneg)
    (hc : a.add b = .ok c) :
    c.IsNonneg ∧ c.toRat ≤ a.toRat + b.toRat ∧
      ∀ x : MiniNumber, x.IsNonneg → x.toRat ≤ a.toRat + b.toRat → x.toRat ≤ c.toRat := by
  have hcan := add_canonical hc
  rw [add_def] at hc
  obtain ⟨rfl, -⟩ := checkLimits_eq_ok.mp hc
  obtain ⟨h1, h2, h3⟩ := alignScales_spec a b
  have hplaces : (alignScales a b).2.2 ≤ maxDecimalPlaces :=
    h3 ▸ max_le ha.canonical.places hb.canonical.places
  have hsum : value ((alignScales a b).1 + (alignScales a b).2.1) (alignScales a b).2.2 =
      a.toRat + b.toRat := by rw [value_add, h1, h2]
  set u := (alignScales a b).1 + (alignScales a b).2.1
  set s := (alignScales a b).2.2
  have hu : 0 ≤ u := by
    rw [← value_le_value _ _ s, value_zero_left, hsum]
    exact add_nonneg ha.toRat_nonneg hb.toRat_nonneg
  have hscale : (keepDigits maxDigits u s).2 ≤ maxDecimalPlaces := by
    simp only [keepDigits]
    split_ifs
    · simp [maxDecimalPlaces]
    · omega
  rw [applyMathContextDefault_eq] at hcan ⊢
  simp only at hcan ⊢
  -- both summands have at most 44 decimal places, so only the digits are cut
  have henf : enforceMaxDecimalPlaces ⟨(keepDigits maxDigits u s).1, (keepDigits maxDigits u s).2⟩ =
      ⟨(keepDigits maxDigits u s).1, (keepDigits maxDigits u s).2⟩ := by
    rw [enforceMaxDecimalPlaces, if_neg (not_lt.mpr hscale)]
  rw [henf] at hcan ⊢
  refine ⟨⟨hcan, keepDigits_nonneg _ s hu⟩, hsum ▸ value_keepDigits_le _ s hu, fun x hx hle => ?_⟩
  exact le_value_keepDigits hx.nonneg (lt_of_abs_lt hx.canonical.digits) (hsum.symm ▸ hle)

/-- **A running sum of numbers that are not negative** stays at or below the exact sum, and meets it
iff no partial sum on the way has to be truncated. -/
theorem IsNonneg.foldlM_add {a v : MiniNumber} {ws : List MiniNumber} (ha : a.IsNonneg)
    (hws : ∀ w ∈ ws, w.IsNonneg) (hv : ws.foldlM MiniNumber.add a = .ok v) :
    v.IsNonneg ∧ v.toRat ≤ a.toRat + (ws.map toRat).sum ∧
      (v.toRat = a.toRat + (ws.map toRat).sum ↔
        ∀ k, ∃ x : MiniNumber, x.IsNonneg ∧ x.toRat = a.toRat + ((ws.take k).map toRat).sum) := by
  induction ws generalizing a with
  | nil =>
    obtain rfl : a = v := by simpa using hv
    refine ⟨ha, by simp, iff_of_true (by simp) fun k => ⟨a, ha, by simp⟩⟩
  | cons w ws ih =>
    rw [List.foldlM_cons, Result.bind_eq_ok] at hv
    obtain ⟨b, hb, hv⟩ := hv
    obtain ⟨hbn, hble, hbest⟩ := ha.add (hws w (by simp)) hb
    obtain ⟨hvn, hvle, hviff⟩ := ih hbn (fun x hx => hws x (by simp [hx])) hv
    simp only [List.map_cons, List.sum_cons]
    refine ⟨hvn, by linarith, fun heq => ?_, fun h => ?_⟩
    · have hb' : b.toRat = a.toRat + w.toRat := by linarith
      have hrest := hviff.mp (by linarith)
      intro k
      cases k with
      | zero => exact ⟨a, ha, by simp⟩
      | succ k =>
        obtain ⟨x, hx, hxv⟩ := hrest k
        refine ⟨x, hx, ?_⟩
        rw [hxv, hb', List.take_succ_cons, List.map_cons, List.sum_cons, add_assoc]
    · -- the first partial sum has room, so the first addition is exact
      obtain ⟨x, hx, hxv⟩ := h 1
      simp only [List.take_succ_cons, List.take_zero, List.map_cons, List.map_nil, List.sum_cons,
        List.sum_nil, add_zero] at hxv
      have hb' : b.toRat = a.toRat + w.toRat := le_antisymm hble (hxv ▸ hbest x hx hxv.le)
      rw [hviff.mpr fun k => ?_, hb', add_assoc]
      obtain ⟨y, hy, hyv⟩ := h (k + 1)
      refine ⟨y, hy, ?_⟩
      rw [hyv, hb', List.take_succ_cons, List.map_cons, List.sum_cons, add_assoc]

/-- **Adding one never takes a time down**, even where the sum is truncated to 64 digits. -/
theorem IsNonneg.add_one {a c : MiniNumber} (ha : a.IsNonneg) (hc : a.add one = .ok c) :
    c.IsNonneg ∧ a.toRat ≤ c.toRat := by
  obtain ⟨h1, -, h2⟩ := ha.add isNonneg_one hc
  refine ⟨h1, h2 a ha ?_⟩
  rw [toRat_one]
  linarith

end MiniNumber

end Minima
