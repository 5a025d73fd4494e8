import Minima.Lib.BigEndian
import Minima.Utils.BaseConverter

/-! # `BaseConverter`: byte strings as numbers in base 32

`encode32` prints the big-endian integer of a byte string in base 32, with three letters replaced by
others that are not so easily misread. `decode32` reads such a text back, in either case. The integer
is kept as a byte string without leading zeros and divided, multiplied and added to in place.

* **`divmodSmall_spec`**, **`muladdSmall_spec`** — the arithmetic on byte strings.
* **`decode32_encode32`** — what comes back is the byte string without its leading zeros. -/

namespace Minima.BaseConverter

open BigEndian TwosComplement

/-! ## Arithmetic with a small number -/

/-- The loop of `divmod_small`: the quotient, byte by byte, and the last remainder. -/
def divmodLoop (base : ℕ) : ℕ → List Byte → List Byte × ℕ
  | rem, [] => ([], rem)
  | rem, b :: mag =>
    let cur := rem * 256 + b.toNat
    let (quotient, last) := divmodLoop base (cur % base) mag
    (UInt8.ofNat (cur / base) :: quotient, last)

/-- `divmod_small`. -/
def divmodSmall (mag : List Byte) (base : ℕ) : List Byte × ℕ :=
  let (quotient, rem) := divmodLoop base 0 mag
  (trim quotient, rem)

/-- The first loop of `muladd_small`, from the last byte on: the product and the carry. -/
def mulLoop (base : ℕ) : List Byte → List Byte × ℕ
  | [] => ([], 0)
  | b :: mag =>
    let (out, carry) := mulLoop base mag
    let prod := b.toNat * base + carry
    (UInt8.ofNat prod :: out, prod / 256)

/-- The loop that adds, which stops when there is no carry. -/
def addLoop (addend : ℕ) : List Byte → List Byte × ℕ
  | [] => ([], addend)
  | b :: mag =>
    let (out, carry) := addLoop addend mag
    if carry = 0 then (b :: out, 0)
    else
      let sum := b.toNat + carry
      (UInt8.ofNat sum :: out, sum / 256)

/-- `while (carry > 0)`: the bytes of the carry in front. The fuel is the number of its bytes. -/
def pushCarry : ℕ → List Byte × ℕ → List Byte
  | 0, (mag, _) => mag
  | fuel + 1, (mag, carry) =>
    if carry = 0 then mag else pushCarry fuel (UInt8.ofNat carry :: mag, carry / 256)

/-- `muladd_small`. A `std::uint32_t` has four bytes. -/
def muladdSmall (mag : List Byte) (base addend : ℕ) : List Byte :=
  pushCarry 4 (addLoop addend (pushCarry 4 (mulLoop base mag)))

/-- The byte and the carry of a number. -/
theorem toNat_ofNat_add (n : ℕ) : (UInt8.ofNat n).toNat + n / 256 * 256 = n := by
  rw [UInt8.toNat_ofNat', show 2 ^ 8 = 256 by norm_num]
  omega

theorem length_divmodLoop (base rem : ℕ) (mag : List Byte) :
    (divmodLoop base rem mag).1.length = mag.length := by
  induction mag generalizing rem with
  | nil => rfl
  | cons b mag ih => simp only [divmodLoop, List.length_cons, ih]

/-- A division by a number of one byte. -/
theorem divmodLoop_spec {base : ℕ} (hbase : base ≤ 256) {rem : ℕ} (hrem : rem < base) (mag : List Byte) :
    rem * 256 ^ mag.length + ofBytesBE mag =
        ofBytesBE (divmodLoop base rem mag).1 * base + (divmodLoop base rem mag).2 ∧
      (divmodLoop base rem mag).2 < base := by
  induction mag generalizing rem with
  | nil => simpa [divmodLoop] using hrem
  | cons b mag ih =>
    have hb : b.toNat < 256 := UInt8.toNat_lt b
    set cur := rem * 256 + b.toNat with hcur
    obtain ⟨hvalue, hlast⟩ := ih (Nat.mod_lt cur (by omega : base > 0))
    have hquotient : (UInt8.ofNat (cur / base)).toNat = cur / base := by
      rw [UInt8.toNat_ofNat_of_lt']
      have hlt : cur < 256 * base := by nlinarith
      exact Nat.div_lt_of_lt_mul (by rwa [mul_comm] at hlt)
    simp only [divmodLoop, ← hcur]
    refine ⟨?_, hlast⟩
    rw [List.length_cons, ofBytesBE_cons, ofBytesBE_cons, length_divmodLoop, hquotient, add_mul, add_assoc,
      ← hvalue, pow_succ]
    calc rem * (256 ^ mag.length * 256) + (b.toNat * 256 ^ mag.length + ofBytesBE mag)
        = cur * 256 ^ mag.length + ofBytesBE mag := by rw [hcur]; ring
      _ = (base * (cur / base) + cur % base) * 256 ^ mag.length + ofBytesBE mag := by
          rw [Nat.div_add_mod]
      _ = cur / base * 256 ^ mag.length * base + (cur % base * 256 ^ mag.length + ofBytesBE mag) := by
          ring

/-- **`divmod_small` divides**, for a number of one byte. -/
theorem divmodSmall_spec {base : ℕ} (hpos : 0 < base) (hbase : base ≤ 256) (mag : List Byte) :
    ofBytesBE mag = ofBytesBE (divmodSmall mag base).1 * base + (divmodSmall mag base).2 ∧
      (divmodSmall mag base).2 < base := by
  have h := divmodLoop_spec hbase hpos mag
  rw [zero_mul, zero_add] at h
  simpa only [divmodSmall, ofBytesBE_trim] using h

theorem mulLoop_spec (base : ℕ) (mag : List Byte) :
    (mulLoop base mag).1.length = mag.length ∧
      ofBytesBE (mulLoop base mag).1 + (mulLoop base mag).2 * 256 ^ mag.length = ofBytesBE mag * base := by
  induction mag with
  | nil => simp [mulLoop]
  | cons b mag ih =>
    obtain ⟨hlen, hvalue⟩ := ih
    have hbyte := toNat_ofNat_add (b.toNat * base + (mulLoop base mag).2)
    simp only [mulLoop]
    refine ⟨by rw [List.length_cons, List.length_cons, hlen], ?_⟩
    rw [List.length_cons, ofBytesBE_cons, ofBytesBE_cons, hlen, add_mul, ← hvalue, pow_succ]
    linear_combination (256 ^ mag.length) * hbyte

theorem addLoop_spec (addend : ℕ) (mag : List Byte) :
    (addLoop addend mag).1.length = mag.length ∧
      ofBytesBE (addLoop addend mag).1 + (addLoop addend mag).2 * 256 ^ mag.length =
        ofBytesBE mag + addend := by
  induction mag with
  | nil => simp [addLoop]
  | cons b mag ih =>
    obtain ⟨hlen, hvalue⟩ := ih
    simp only [addLoop]
    split_ifs with hzero
    · refine ⟨by rw [List.length_cons, List.length_cons, hlen], ?_⟩
      rw [hzero, zero_mul, add_zero] at hvalue
      rw [ofBytesBE_cons, ofBytesBE_cons, hlen, hvalue]
      ring
    · have hbyte := toNat_ofNat_add (b.toNat + (addLoop addend mag).2)
      refine ⟨by rw [List.length_cons, List.length_cons, hlen], ?_⟩
      rw [List.length_cons, ofBytesBE_cons, ofBytesBE_cons, hlen, add_assoc _ _ addend, ← hvalue, pow_succ]
      linear_combination (256 ^ mag.length) * hbyte

theorem ofBytesBE_pushCarry {fuel carry : ℕ} (h : carry < 256 ^ fuel) (mag : List Byte) :
    ofBytesBE (pushCarry fuel (mag, carry)) = ofBytesBE mag + carry * 256 ^ mag.length := by
  induction fuel generalizing mag carry with
  | zero =>
    obtain rfl : carry = 0 := by simpa using h
    simp [pushCarry]
  | succ fuel ih =>
    rw [pushCarry]
    split_ifs with hzero
    · simp [hzero]
    · have hbyte := toNat_ofNat_add carry
      have hlt : carry / 256 < 256 ^ fuel := Nat.div_lt_of_lt_mul (by rwa [pow_succ, mul_comm] at h)
      rw [ih hlt, ofBytesBE_cons, List.length_cons, pow_succ]
      linear_combination (256 ^ mag.length) * hbyte

/-- The bytes of a carry begin with one that is not zero. -/
theorem trimmed_pushCarry {fuel carry : ℕ} (h : carry < 256 ^ fuel) {mag : List Byte}
    (hmag : carry = 0 → Trimmed mag) : Trimmed (pushCarry fuel (mag, carry)) := by
  induction fuel generalizing mag carry with
  | zero =>
    rw [pushCarry]
    exact hmag (by simpa using h)
  | succ fuel ih =>
    rw [pushCarry]
    split_ifs with hzero
    · exact hmag hzero
    · have hlt : carry / 256 < 256 ^ fuel := Nat.div_lt_of_lt_mul (by rwa [pow_succ, mul_comm] at h)
      refine ih hlt fun hlast => ?_
      intro b hb hbyte
      have hcarry := toNat_ofNat_add carry
      obtain rfl : UInt8.ofNat carry = b := by simpa using hb
      rw [hbyte, hlast] at hcarry
      exact hzero (by simpa using hcarry.symm)

/-- **`muladd_small` multiplies and adds**, and makes no leading zeros. -/
theorem muladdSmall_spec {mag : List Byte} (hmag : Trimmed mag) {base addend : ℕ} (hpos : 0 < base)
    (hbase : base ≤ 256) (hadd : addend < 256) :
    ofBytesBE (muladdSmall mag base addend) = ofBytesBE mag * base + addend ∧
      Trimmed (muladdSmall mag base addend) := by
  obtain ⟨hmullen, hmul⟩ := mulLoop_spec base mag
  have hmullt : (mulLoop base mag).2 < 256 ^ 4 := by
    have hlt : (mulLoop base mag).2 * 256 ^ mag.length < 257 * 256 ^ mag.length := by
      nlinarith [ofBytesBE_lt mag]
    have := Nat.lt_of_mul_lt_mul_right hlt
    omega
  have hprod : ofBytesBE (pushCarry 4 (mulLoop base mag)) = ofBytesBE mag * base := by
    rw [← hmul, ← hmullen]
    exact ofBytesBE_pushCarry hmullt _
  have hprodtrimmed : Trimmed (pushCarry 4 (mulLoop base mag)) := by
    refine trimmed_pushCarry hmullt fun hzero => hmag.of_le hmullen.symm ?_
    rw [hzero, zero_mul, add_zero] at hmul
    exact hmul ▸ Nat.le_mul_of_pos_right _ hpos
  obtain ⟨haddlen, hsum⟩ := addLoop_spec addend (pushCarry 4 (mulLoop base mag))
  rw [hprod] at hsum
  have haddlt : (addLoop addend (pushCarry 4 (mulLoop base mag))).2 < 256 ^ 4 := by
    have hlt := ofBytesBE_lt (pushCarry 4 (mulLoop base mag))
    rw [hprod] at hlt
    have hpow : 0 < 256 ^ (pushCarry 4 (mulLoop base mag)).length := by positivity
    have hle : (addLoop addend (pushCarry 4 (mulLoop base mag))).2 *
        256 ^ (pushCarry 4 (mulLoop base mag)).length <
          257 * 256 ^ (pushCarry 4 (mulLoop base mag)).length := by
      nlinarith
    have := Nat.lt_of_mul_lt_mul_right hle
    omega
  constructor
  · rw [← hsum, ← haddlen]
    exact ofBytesBE_pushCarry haddlt _
  · refine trimmed_pushCarry haddlt fun hzero => hprodtrimmed.of_le haddlen.symm ?_
    rw [hzero, zero_mul, add_zero] at hsum
    rw [hsum, hprod]
    exact Nat.le_add_right _ _

/-! ## Digits -/

/-- The `while` loop of `encode32`: the digits from the last one on. -/
def digitsLoop : ℕ → List Byte → List ℕ
  | 0, _ => []
  | fuel + 1, tmp =>
    if tmp.isEmpty then []
    else
      let (tmp, rem) := divmodSmall tmp 32
      rem :: digitsLoop fuel tmp

/-- **The digits of a byte string** in base 32. -/
theorem digitsLoop_spec {fuel : ℕ} {tmp : List Byte} (hfuel : ofBytesBE tmp < 32 ^ fuel) :
    Nat.ofDigits 32 (digitsLoop fuel tmp) = ofBytesBE tmp ∧ ∀ v ∈ digitsLoop fuel tmp, v < 32 := by
  induction fuel generalizing tmp with
  | zero =>
    have hzero : ofBytesBE tmp = 0 := by simpa using hfuel
    simp [digitsLoop, hzero]
  | succ fuel ih =>
    rw [digitsLoop]
    split_ifs with hempty
    · rw [List.isEmpty_iff.mp hempty]
      simp
    · obtain ⟨hvalue, hrem⟩ := divmodSmall_spec (by norm_num : 0 < 32) (by norm_num) tmp
      have hlt : ofBytesBE (divmodSmall tmp 32).1 < 32 ^ fuel := by
        rw [pow_succ] at hfuel
        omega
      obtain ⟨hdigits, hall⟩ := ih hlt
      constructor
      · rw [Nat.ofDigits_cons, hdigits]
        show (divmodSmall tmp 32).2 + 32 * _ = _
        omega
      · intro v hv
        rcases List.mem_cons.mp hv with rfl | hv
        · exact hrem
        · exact hall v hv

/-- `base32_digit_from_val`. -/
def base32DigitFromVal (v : ℕ) : Byte := if v < 10 then UInt8.ofNat (48 + v) else UInt8.ofNat (97 + (v - 10))

/-- `base32_val_from_digit`; none for −1. -/
def base32ValFromDigit (c : Byte) : Option ℕ :=
  if 48 ≤ c ∧ c ≤ 57 then some (c.toNat - 48)
  else if 97 ≤ c ∧ c ≤ 118 then some (10 + (c.toNat - 97))
  else none

/-- `std::tolower` on one character. -/
def toLower (c : Byte) : Byte := if 65 ≤ c ∧ c ≤ 90 then c + 32 else c

/-- The letters that are misread, `i`, `l` and `o`, become `w`, `y` and `z`. -/
def replaceProblematic (ch : Byte) : Byte :=
  if ch = 105 then 119 else if ch = 108 then 121 else if ch = 111 then 122 else ch

/-- The reverse replacements. -/
def restoreProblematic (ch : Byte) : Byte :=
  if ch = 119 then 105 else if ch = 121 then 108 else if ch = 122 then 111 else ch

/-! ## Texts -/

/-- `encode32`. Two digits of base 32 hold more than a byte. -/
def encode32 (zData : List Byte) : Text :=
  let mag := trim zData
  let digits :=
    if mag.isEmpty then [48] else ((digitsLoop (2 * mag.length) mag).map base32DigitFromVal).reverse
  77 :: 120 :: (digits.map replaceProblematic).map toUpper

/-- The last loop of `decode32`. -/
def decodeLoop : List Byte → Text → Result (List Byte)
  | mag, [] => .ok mag
  | mag, ch :: b32 =>
    match base32ValFromDigit ch with
    | none => throwException "Invalid Base32 character in decode32: "
    | some val => decodeLoop (muladdSmall mag 32 val) b32

/-- Drop a leading `mx`. -/
def dropMx : Text → Text
  | 109 :: 120 :: b32 => b32
  | b32 => b32

/-- `decode32`. -/
def decode32 (zBase32 : Text) : Result (List Byte) :=
  let b32 := (dropMx (zBase32.map toLower)).map restoreProblematic
  if b32.isEmpty then throwException "Invalid Base32 string in decode32: empty payload"
  else decodeLoop [] b32

theorem decodeLoop_ok_or_throws (mag : List Byte) (b32 : Text) :
    (∃ out, decodeLoop mag b32 = .ok out) ∨ Throws (decodeLoop mag b32) := by
  induction b32 generalizing mag with
  | nil => exact .inl ⟨mag, rfl⟩
  | cons ch b32 ih =>
    rw [decodeLoop]
    cases base32ValFromDigit ch with
    | none => exact .inr ⟨_, rfl⟩
    | some v => exact ih _

/-- `decode32` returns or throws. -/
theorem decode32_ok_or_throws (zBase32 : Text) :
    (∃ out, decode32 zBase32 = .ok out) ∨ Throws (decode32 zBase32) := by
  unfold decode32
  dsimp only
  split_ifs
  · exact .inr ⟨_, rfl⟩
  · exact decodeLoop_ok_or_throws _ _

/-- The value of a character of `encode32`. -/
theorem base32Val_encoded {v : ℕ} (h : v < 32) :
    base32ValFromDigit (restoreProblematic (toLower (toUpper (replaceProblematic (base32DigitFromVal v))))) =
      some v := by
  interval_cases v <;> decide

/-- Digits are read back from the first one on. -/
theorem decodeLoop_digits {vs : List ℕ} (hvs : ∀ v ∈ vs, v < 32) {mag : List Byte} (hmag : Trimmed mag) :
    ∃ out, decodeLoop mag (vs.map fun v => restoreProblematic (toLower (toUpper (replaceProblematic
        (base32DigitFromVal v))))) = .ok out ∧ Trimmed out ∧
      ofBytesBE out = vs.foldl (fun acc v => acc * 32 + v) (ofBytesBE mag) := by
  induction vs generalizing mag with
  | nil => exact ⟨mag, rfl, hmag, rfl⟩
  | cons v vs ih =>
    have hv := hvs v List.mem_cons_self
    obtain ⟨hvalue, htrimmed⟩ :=
      muladdSmall_spec hmag (by norm_num : 0 < 32) (by norm_num) (hv.trans (by norm_num))
    obtain ⟨out, hout, htrim, hfold⟩ := ih (fun w hw => hvs w (List.mem_cons_of_mem _ hw)) htrimmed
    refine ⟨out, ?_, htrim, ?_⟩
    · rw [List.map_cons, decodeLoop, base32Val_encoded hv]
      exact hout
    · rw [hfold, hvalue, List.foldl_cons]

/-- Horner's rule from the first digit on. -/
theorem foldl_reverse_digits (vs : List ℕ) :
    vs.reverse.foldl (fun acc v => acc * 32 + v) 0 = Nat.ofDigits 32 vs := by
  rw [List.foldl_reverse, Nat.ofDigits_eq_foldr]
  congr 1
  funext v acc
  rw [Nat.cast_id]
  ring

/-- The digits of `encode32`, from the first one on. -/
def digits32 (mag : List Byte) : List ℕ :=
  if mag.isEmpty then [0] else (digitsLoop (2 * mag.length) mag).reverse

theorem digits32_spec {mag : List Byte} (hmag : Trimmed mag) :
    (∀ v ∈ digits32 mag, v < 32) ∧ (digits32 mag).foldl (fun acc v => acc * 32 + v) 0 = ofBytesBE mag ∧
      digits32 mag ≠ [] := by
  cases mag with
  | nil => decide
  | cons b mag =>
    have hfuel : ofBytesBE (b :: mag) < 32 ^ (2 * (b :: mag).length) := by
      refine (ofBytesBE_lt _).trans_le ?_
      rw [pow_mul]
      exact Nat.pow_le_pow_left (by norm_num) _
    obtain ⟨hvalue, hall⟩ := digitsLoop_spec hfuel
    have hdigits : digits32 (b :: mag) = (digitsLoop (2 * (b :: mag).length) (b :: mag)).reverse := rfl
    rw [hdigits]
    refine ⟨fun v hv => hall v (List.mem_reverse.mp hv), ?_, fun hnil => ?_⟩
    · rw [foldl_reverse_digits, hvalue]
    · rw [List.reverse_eq_nil_iff] at hnil
      rw [hnil, Nat.ofDigits_nil] at hvalue
      have hbig := pow_le_ofBytesBE (hmag b rfl) mag
      rw [← hvalue] at hbig
      exact absurd hbig (not_le.mpr (by positivity))

theorem encode32_eq (zData : List Byte) :
    encode32 zData = 77 :: 120 :: (digits32 (trim zData)).map fun v =>
      toUpper (replaceProblematic (base32DigitFromVal v)) := by
  rw [encode32, digits32]
  split_ifs with hempty
  · rfl
  · rw [← List.map_reverse, List.map_map, List.map_map]
    rfl

/-- **A text in base 32 is read back** as the byte string without its leading zeros. -/
theorem decode32_encode32 (zData : List Byte) : decode32 (encode32 zData) = .ok (trim zData) := by
  obtain ⟨hall, hvalue, hne⟩ := digits32_spec (trimmed_trim zData)
  obtain ⟨out, hout, htrimmed, hfold⟩ := decodeLoop_digits hall (by simp [Trimmed] : Trimmed [])
  rw [ofBytesBE_nil, hvalue] at hfold
  have hmapped : (dropMx ((encode32 zData).map toLower)).map restoreProblematic =
      (digits32 (trim zData)).map fun v => restoreProblematic (toLower (toUpper (replaceProblematic
        (base32DigitFromVal v)))) := by
    rw [encode32_eq, List.map_cons, List.map_cons, List.map_map]
    show (List.map _ _).map _ = _
    rw [List.map_map]
    rfl
  rw [decode32, hmapped, if_neg (by simpa using hne), hout,
    htrimmed.eq_of_value (trimmed_trim zData) hfold]

end Minima.BaseConverter
