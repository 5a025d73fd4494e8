import Minima.Lib.BitLength
import Minima.Objects.TxPoW

/-! # `Maths::getSuperLevel`

The super level of a block is the number of times that its difficulty can be halved before it is below its
id. `Maths::getSuperLevel` finds it without a division, by counting the bits of the two byte strings in an
`int` and comparing once; `TxPoW::getSuperLevel` divides.

* **`getSuperLevel_eq`** — where the numbers of bits fit an `int` both are the logarithm, cut off at the
  ends of the cascade, and no larger id has a higher level.
* **`getSuperLevel_wraps`** — a difficulty of `2^31 + 1` bits, whose number of bits comes out negative. -/

namespace Minima

namespace Maths

open TwosComplement BigEndian BitLength
open TxPoW (intOf superLevelOf clampSuperBlock)

/-! ## The source -/

/-- `trimLeadingZeros`: zero is the empty string. -/
def trimLeadingZeros (be : List Byte) : List Byte := be.dropWhile fun b => b == 0

/-- `countLeadingZeros8`: the bits above the highest one that is set. -/
def countLeadingZeros8 (v : Byte) : ℕ :=
  ((List.range 8).reverse.takeWhile fun i => !v.toNat.testBit i).length

/-- `bitLengthBE`. -/
def bitLengthBE (be_raw : List Byte) : ℤ :=
  match trimLeadingZeros be_raw with
  | [] => 0
  | msb :: be => intOf (be.length * 8 + (8 - countLeadingZeros8 msb))

/-- `compareUnsignedBE`, which is written like the comparison of `MiniData`. -/
def compareUnsignedBE (a_raw b_raw : List Byte) : ℤ :=
  MiniData.compareMagnitude (trimLeadingZeros a_raw) (trimLeadingZeros b_raw)

/-- The result of an operation on `int`s. -/
def checkInt (v : ℤ) : Result ℤ :=
  if -2 ^ 31 ≤ v ∧ v < 2 ^ 31 then .ok v else undefinedBehaviour "signed integer overflow"

/-- `shiftLeftBE`. The loop over the bytes counts down an `int`. -/
def shiftLeftBE (be_raw : List Byte) (nbits : ℤ) : Result (List Byte) :=
  if nbits < 0 then throwException "shiftLeftBE: negative shift"
  else
    let be := trimLeadingZeros be_raw
    if be = [] then pure be
    else do
      let byte_shift := (nbits / 8).toNat
      let bit_shift := (nbits % 8).toNat
      let out ←
        if bit_shift ≠ 0 then do
          let i ← checkInt (intOf be.length - 1)
          let (out, carry) := shiftBytes bit_shift (be.take (i + 1).toNat)
          let out := out ++ be.drop (i + 1).toNat
          pure (if carry ≠ 0 then carry :: out else out)
        else pure be
      pure (trimLeadingZeros (out ++ List.replicate byte_shift 0))

/-- **`Maths::getSuperLevel`.** -/
def getSuperLevel (zDifficulty zActual : MiniData) : Result ℤ :=
  let dbe := trimLeadingZeros zDifficulty.bytes
  let abe := trimLeadingZeros zActual.bytes
  if abe = [] then throwException "getSuperLevel: division by zero (zActual == 0)"
  else if dbe = [] then pure 0
  else do
    let shift ← checkInt (bitLengthBE dbe - bitLengthBE abe)
    if shift < 0 then pure 0
    else
      let a_shifted ← shiftLeftBE abe shift
      let cmp := compareUnsignedBE dbe a_shifted
      let quotientBitLen ← (if cmp < 0 then pure shift else checkInt (shift + 1))
      let ll2 := if quotientBitLen = 0 then -1 else quotientBitLen - 1
      let ll2 := if ll2 < 0 then 0 else ll2
      let maxlevel := (cascadeLevels : ℤ) - 1
      pure (if ll2 > maxlevel then maxlevel else ll2)

/-- **The level on the integers:** the logarithm to base two of the exact quotient, rounded down, and between
zero and the highest level. The logarithm of zero is taken as zero. -/
noncomputable def exactLevel (zDifficulty zActual : MiniData) : ℤ :=
  min ((cascadeLevels : ℤ) - 1)
    (max 0 ⌊Real.logb 2 ((zDifficulty.getDataValue : ℝ) / zActual.getDataValue)⌋)

/-! ## Bytes and bits -/

theorem trimLeadingZeros_eq (be : List Byte) : trimLeadingZeros be = trim be := rfl

theorem ofBytesBE_trimLeadingZeros (be : List Byte) : ofBytesBE (trimLeadingZeros be) = ofBytesBE be :=
  ofBytesBE_trim be

theorem trimmed_trimLeadingZeros (be : List Byte) : Trimmed (trimLeadingZeros be) := trimmed_trim be

theorem trimLeadingZeros_eq_nil_iff {be : List Byte} : trimLeadingZeros be = [] ↔ ofBytesBE be = 0 := by
  rw [trimLeadingZeros_eq, trim_eq_nil_iff, ofBytesBE_eq_zero_iff]

/-- An `int` holds a size below `2^31`. -/
theorem intOf_of_lt {n : ℕ} (h : n < 2 ^ 31) : intOf n = n := by
  unfold intOf
  rw [Int.bmod_def]
  omega

theorem checkInt_of_mem {v : ℤ} (h : -2 ^ 31 ≤ v ∧ v < 2 ^ 31) : checkInt v = .ok v := if_pos h

/-- What is left of the eight bits are those of the number. -/
theorem countLeadingZeros8_spec : ∀ n : Fin 256,
    8 - countLeadingZeros8 (UInt8.ofNat n) = (UInt8.ofNat n).toNat.size := by
  decide +kernel

/-- **`bitLengthBE` counts the bits** as far as an `int` goes. -/
theorem bitLengthBE_eq (be : List Byte) : bitLengthBE be = intOf (ofBytesBE be).size := by
  rw [← ofBytesBE_trimLeadingZeros be, bitLengthBE]
  have htrimmed := trimmed_trimLeadingZeros be
  cases htrim : trimLeadingZeros be with
  | nil => rfl
  | cons msb rest =>
    have hmsb : msb ≠ 0 := htrimmed msb (by rw [htrim]; rfl)
    have hcount := countLeadingZeros8_spec ⟨msb.toNat, msb.toNat_lt⟩
    rw [UInt8.ofNat_toNat] at hcount
    simp only
    rw [size_ofBytesBE_cons hmsb, hcount]

/-- The comparison is that of the integers. -/
theorem compareUnsignedBE_neg_iff (a b : List Byte) :
    compareUnsignedBE a b < 0 ↔ ofBytesBE a < ofBytesBE b := by
  rw [compareUnsignedBE, MiniData.compareMagnitude_eq,
    cmpMagnitude_eq_sign (trimmed_trimLeadingZeros a) (trimmed_trimLeadingZeros b),
    ofBytesBE_trimLeadingZeros, ofBytesBE_trimLeadingZeros, Int.sign_neg_iff]
  omega

/-- **`shiftLeftBE` multiplies by a power of two**, as long as an `int` counts the bytes. -/
theorem shiftLeftBE_spec {be : List Byte} (hlen : be.length < 2 ^ 31) (nbits : ℕ) :
    ∃ out, shiftLeftBE be nbits = .ok out ∧ ofBytesBE out = ofBytesBE be * 2 ^ nbits := by
  unfold shiftLeftBE
  rw [if_neg (by omega)]
  by_cases hnil : trimLeadingZeros be = []
  · refine ⟨trimLeadingZeros be, by simp [hnil], ?_⟩
    rw [ofBytesBE_trimLeadingZeros, trimLeadingZeros_eq_nil_iff.mp hnil, Nat.zero_mul]
  have hlen' : (trimLeadingZeros be).length < 2 ^ 31 := by
    have := List.length_dropWhile_le (fun b : Byte => b == 0) be
    unfold trimLeadingZeros
    omega
  have hpos : 0 < (trimLeadingZeros be).length := List.length_pos_iff.mpr hnil
  have hcount : checkInt (intOf (trimLeadingZeros be).length - 1) =
      .ok (((trimLeadingZeros be).length : ℤ) - 1) := by
    rw [intOf_of_lt hlen']
    exact checkInt_of_mem (by omega)
  have hall : (((trimLeadingZeros be).length : ℤ) - 1 + 1).toNat = (trimLeadingZeros be).length := by omega
  have hbyte : ((nbits : ℤ) / 8).toNat = nbits / 8 := by omega
  have hbit : ((nbits : ℤ) % 8).toNat = nbits % 8 := by omega
  have hshift : nbits % 8 + 8 * (nbits / 8) = nbits := Nat.mod_add_div nbits 8
  simp only [if_neg hnil, hbyte, hbit]
  by_cases hzero : nbits % 8 = 0
  · refine ⟨trimLeadingZeros (trimLeadingZeros be ++ List.replicate (nbits / 8) 0), by simp [hzero], ?_⟩
    have hexact : 8 * (nbits / 8) = nbits := by omega
    rw [ofBytesBE_trimLeadingZeros, ofBytesBE_append_zeros, ofBytesBE_trimLeadingZeros, hexact]
  · have hvalue := ofBytesBE_shiftBytes (Nat.mod_lt nbits (by norm_num : 0 < 8)) (trimLeadingZeros be)
    simp only [ne_eq, hzero, not_false_eq_true, if_true, hcount, Result.ok_bind, hall, List.take_length,
      List.drop_length, List.append_nil]
    refine ⟨_, rfl, ?_⟩
    rw [ofBytesBE_trimLeadingZeros, ofBytesBE_append_zeros]
    have hcarry : ofBytesBE (if ¬ (shiftBytes (nbits % 8) (trimLeadingZeros be)).2 = 0 then
        (shiftBytes (nbits % 8) (trimLeadingZeros be)).2 :: (shiftBytes (nbits % 8) (trimLeadingZeros be)).1
        else (shiftBytes (nbits % 8) (trimLeadingZeros be)).1) =
        ofBytesBE (trimLeadingZeros be) * 2 ^ (nbits % 8) := by
      rw [← hvalue]
      split_ifs with hc
      · rw [hc, ofBytesBE_zero_cons]
      · rfl
    rw [hcarry, ofBytesBE_trimLeadingZeros, mul_assoc, ← pow_add, hshift]

/-! ## The level -/

/-- The exact level from the whole quotient. -/
theorem exactLevel_eq (zDifficulty zActual : MiniData) :
    exactLevel zDifficulty zActual =
      min ((cascadeLevels : ℤ) - 1) (zDifficulty.getDataValue / zActual.getDataValue).log2 := by
  rw [exactLevel, max_floor_logb_div]

/-- No larger id has a higher level. -/
theorem exactLevel_anti (zDifficulty : MiniData) {zActual zLarger : MiniData}
    (hpos : zActual.getDataValue ≠ 0) (hle : zActual.getDataValue ≤ zLarger.getDataValue) :
    exactLevel zDifficulty zLarger ≤ exactLevel zDifficulty zActual := by
  have hdiv : zDifficulty.getDataValue / zLarger.getDataValue ≤
      zDifficulty.getDataValue / zActual.getDataValue :=
    Nat.div_le_div_left hle (Nat.pos_of_ne_zero hpos)
  rw [exactLevel_eq, exactLevel_eq, log2_eq_size_sub_one, log2_eq_size_sub_one]
  have hsize := Nat.size_le_size hdiv
  exact min_le_min_left _ (by omega)

/-- The cut-off of `getSuperLevel`. -/
theorem cutOff_eq (size : ℕ) :
    (let ll2 := if (size : ℤ) = 0 then -1 else (size : ℤ) - 1
     let ll2 := if ll2 < 0 then 0 else ll2
     let maxlevel := (cascadeLevels : ℤ) - 1
     if ll2 > maxlevel then maxlevel else ll2) = min ((cascadeLevels : ℤ) - 1) ((size - 1 : ℕ) : ℤ) := by
  unfold cascadeLevels
  simp only
  split_ifs <;> omega

/-- **The bits that `getSuperLevel` counts are those of the quotient.** -/
theorem getSuperLevel_eq_exactLevel (zDifficulty zActual : MiniData) (hpos : zActual.getDataValue ≠ 0)
    (hdifficulty : zDifficulty.getDataValue.size < 2 ^ 31) (hactual : zActual.getDataValue.size < 2 ^ 31) :
    getSuperLevel zDifficulty zActual = .ok (exactLevel zDifficulty zActual) := by
  set d := zDifficulty.getDataValue with hd
  set a := zActual.getDataValue with ha
  have hvalue : ∀ x : MiniData, ofBytesBE (trimLeadingZeros x.bytes) = x.getDataValue := fun x =>
    ofBytesBE_trimLeadingZeros x.bytes
  have habe : trimLeadingZeros zActual.bytes ≠ [] := fun h => hpos (trimLeadingZeros_eq_nil_iff.mp h)
  rw [exactLevel_eq, ← hd, ← ha, log2_eq_size_sub_one, ← cutOff_eq]
  unfold getSuperLevel
  simp only [if_neg habe, bitLengthBE_eq, hvalue, ← hd, ← ha, intOf_of_lt hdifficulty,
    intOf_of_lt hactual]
  by_cases hzero : trimLeadingZeros zDifficulty.bytes = []
  · -- the difficulty is zero
    have hdzero : d = 0 := trimLeadingZeros_eq_nil_iff.mp hzero
    rw [if_pos hzero, hdzero, Nat.zero_div]
    rfl
  rw [if_neg hzero, checkInt_of_mem (by omega), Result.ok_bind]
  by_cases hlt : d.size < a.size
  · -- the quotient is zero
    rw [if_pos (by omega), div_eq_zero_of_size_lt hlt]
    rfl
  have hbytes : (trimLeadingZeros zActual.bytes).length < 2 ^ 31 := by
    cases habe' : trimLeadingZeros zActual.bytes with
    | nil => simp
    | cons b bs =>
      have hb : b ≠ 0 := trimmed_trimLeadingZeros zActual.bytes b (by rw [habe']; rfl)
      have hsize := size_ofBytesBE_cons hb bs
      have hvalue' := hvalue zActual
      rw [habe'] at hvalue'
      rw [hvalue', ← ha] at hsize
      rw [List.length_cons]
      omega
  obtain ⟨a_shifted, hshift, hshifted⟩ := shiftLeftBE_spec hbytes (d.size - a.size)
  rw [hvalue, ← ha] at hshifted
  have hcast : ((d.size : ℤ) - a.size) = ((d.size - a.size : ℕ) : ℤ) := by omega
  have hquotient : (if compareUnsignedBE (trimLeadingZeros zDifficulty.bytes) a_shifted < 0
      then (pure ((d.size - a.size : ℕ) : ℤ) : Result ℤ)
      else checkInt (((d.size - a.size : ℕ) : ℤ) + 1)) = .ok ((d / a).size : ℤ) := by
    have hcmp : compareUnsignedBE (trimLeadingZeros zDifficulty.bytes) a_shifted < 0 ↔
        d < a * 2 ^ (d.size - a.size) := by
      rw [compareUnsignedBE_neg_iff, hvalue, ← hd, hshifted]
    have hasize : 0 < a.size := Nat.size_pos.mpr (Nat.pos_of_ne_zero hpos)
    rw [size_div hpos (not_lt.mp hlt)]
    simp only [hcmp]
    split_ifs
    · rfl
    · rw [checkInt_of_mem (by omega)]
      push_cast
      rfl
  rw [hcast, if_neg (by omega), hshift]
  simp only [Result.ok_bind, hquotient]
  rfl

/-- The level that a `TxPoW` keeps is cut off in the same way. -/
theorem clampSuperBlock_eq_exactLevel (zDifficulty zActual : MiniData) (hpos : zActual.getDataValue ≠ 0)
    (hdifficulty : zDifficulty.getDataValue.size < 2 ^ 31) :
    ((clampSuperBlock (superLevelOf zDifficulty zActual) : ℕ) : ℤ) = exactLevel zDifficulty zActual := by
  rw [exactLevel_eq]
  set d := zDifficulty.getDataValue with hd
  set a := zActual.getDataValue with ha
  have hlog : (d / a).log2 < 2 ^ 31 := by
    have hsize := Nat.size_le_size (Nat.div_le_self d a)
    rw [log2_eq_size_sub_one]
    omega
  unfold superLevelOf
  simp only [← hd, ← ha, if_neg hpos, intOf_of_lt hlog]
  by_cases hquot : d / a = 0
  · rw [if_pos hquot, hquot]
    rfl
  · rw [if_neg hquot]
    unfold clampSuperBlock cascadeLevels
    simp only
    omega

/-- **The super level.** For every difficulty and every id other than zero whose numbers of bits fit an
`int`, both functions come to the exact level, and no larger id comes to a higher one. -/
theorem getSuperLevel_eq (zDifficulty zActual : MiniData) (hpos : zActual.getDataValue ≠ 0)
    (hdifficulty : zDifficulty.getDataValue.size < 2 ^ 31) (hactual : zActual.getDataValue.size < 2 ^ 31) :
    getSuperLevel zDifficulty zActual = .ok (exactLevel zDifficulty zActual) ∧
      ((clampSuperBlock (superLevelOf zDifficulty zActual) : ℕ) : ℤ) = exactLevel zDifficulty zActual ∧
      ∀ zLarger : MiniData, zActual.getDataValue ≤ zLarger.getDataValue →
        zLarger.getDataValue.size < 2 ^ 31 →
        ∃ level, getSuperLevel zDifficulty zLarger = .ok level ∧
          ((clampSuperBlock (superLevelOf zDifficulty zLarger) : ℕ) : ℤ) = level ∧
          level ≤ exactLevel zDifficulty zActual := by
  refine ⟨getSuperLevel_eq_exactLevel zDifficulty zActual hpos hdifficulty hactual,
    clampSuperBlock_eq_exactLevel zDifficulty zActual hpos hdifficulty, fun zLarger hle hlarger => ?_⟩
  have hpos' : zLarger.getDataValue ≠ 0 := by omega
  exact ⟨exactLevel zDifficulty zLarger,
    getSuperLevel_eq_exactLevel zDifficulty zLarger hpos' hdifficulty hlarger,
    clampSuperBlock_eq_exactLevel zDifficulty zLarger hpos' hdifficulty,
    exactLevel_anti zDifficulty hpos hle⟩

/-- Sixteen over three is five, and five has three bits. -/
theorem getSuperLevel_eq_five :
    getSuperLevel ⟨[16]⟩ ⟨[3]⟩ = .ok (exactLevel ⟨[16]⟩ ⟨[3]⟩) ∧
      ((clampSuperBlock (superLevelOf ⟨[16]⟩ ⟨[3]⟩) : ℕ) : ℤ) = exactLevel ⟨[16]⟩ ⟨[3]⟩ ∧
      ∃ level, getSuperLevel ⟨[16]⟩ ⟨[0, 7]⟩ = .ok level ∧
        ((clampSuperBlock (superLevelOf ⟨[16]⟩ ⟨[0, 7]⟩) : ℕ) : ℤ) = level ∧
        level ≤ exactLevel ⟨[16]⟩ ⟨[3]⟩ := by
  have h := getSuperLevel_eq ⟨[16]⟩ ⟨[3]⟩ (by decide) (by decide) (by decide)
  exact ⟨h.1, h.2.1, h.2.2 ⟨[0, 7]⟩ (by decide) (by decide)⟩

/-- The byte one and `n` zeros behind it have `8 n + 1` bits. -/
theorem size_one_zeros (n : ℕ) : (MiniData.mk (1 :: List.replicate n 0)).getDataValue.size = n * 8 + 1 := by
  rw [MiniData.getDataValue, size_ofBytesBE_cons (by decide), List.length_replicate]
  rfl

/-- **The number of bits wraps round.** A difficulty of 256 MB is taken for one that is below the id `1`, by
both functions. -/
theorem getSuperLevel_wraps :
    getSuperLevel ⟨1 :: List.replicate (2 ^ 28) 0⟩ ⟨[1]⟩ = .ok 0 ∧
      (clampSuperBlock (superLevelOf ⟨1 :: List.replicate (2 ^ 28) 0⟩ ⟨[1]⟩) : ℕ) = 0 ∧
      exactLevel ⟨1 :: List.replicate (2 ^ 28) 0⟩ ⟨[1]⟩ = 31 := by
  have hsize := size_one_zeros (2 ^ 28)
  set big : MiniData := ⟨1 :: List.replicate (2 ^ 28) 0⟩ with hbig
  have hvalue : ∀ x : MiniData, ofBytesBE (trimLeadingZeros x.bytes) = x.getDataValue := fun x =>
    ofBytesBE_trimLeadingZeros x.bytes
  have hone : (MiniData.mk [1]).getDataValue = 1 := rfl
  have hne : big.getDataValue ≠ 0 := fun h => by simp [h] at hsize
  have hlog : big.getDataValue.log2 = 2 ^ 31 := by
    rw [log2_eq_size_sub_one, hsize]
    norm_num
  refine ⟨?_, ?_, ?_⟩
  · have hbits : checkInt (intOf (2 ^ 28 * 8 + 1) - intOf (Nat.size 1)) = .ok (-2 ^ 31) := by decide
    have hnil : trimLeadingZeros big.bytes ≠ [] := fun h => hne (trimLeadingZeros_eq_nil_iff.mp h)
    unfold getSuperLevel
    rw [if_neg (by decide), if_neg hnil, bitLengthBE_eq, bitLengthBE_eq, hvalue, hvalue, hsize, hone, hbits]
    rfl
  · unfold superLevelOf
    simp only [hone, Nat.div_one, hlog, if_neg hne]
    decide
  · rw [exactLevel_eq, hone, Nat.div_one, hlog]
    rfl

end Maths

end Minima
