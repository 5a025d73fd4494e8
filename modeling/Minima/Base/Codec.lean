import Minima.Base.NumberText
import Minima.Base.Reader
import Minima.Utils.Crypto

/-! # Writing and reading back

Every object of the chain has a writer and a reader that follow the same order of fields. Two facts
about such a pair are composed field by field:

* **`Yields`** — what holds of every value a reader returns.
* **`Transmits`** — a value is written, and the bytes read back as a value, possibly another one. An
  object makes the round trip when it is transmitted as itself.

The base values follow: byte strings, hashes and numbers inside the limits. -/

namespace Minima

open TwosComplement Decimal

/-! ## What a reader returns -/

/-- Every value that the reader returns has the property. -/
def Yields {α : Type} (r : Reader α) (P : α → Prop) : Prop :=
  ∀ ⦃s : List Byte⦄ ⦃x : α⦄ ⦃rest : List Byte⦄, r s = (.ok x, rest) → P x

namespace Yields

variable {α β : Type} {r : Reader α} {P : α → Prop} {Q : β → Prop}

theorem any (r : Reader α) : Yields r fun _ => True := fun _ _ _ _ => trivial

theorem mono {P' : α → Prop} (hr : Yields r P) (h : ∀ x, P x → P' x) : Yields r P' :=
  fun _ x _ hread => h x (hr hread)

theorem pure {x : α} (h : P x) : Yields (Pure.pure x : Reader α) P := by
  intro s y rest hread
  cases hread
  exact h

theorem bind {f : α → Reader β} (hr : Yields r P) (hf : ∀ x, P x → Yields (f x) Q) :
    Yields (r >>= f) Q := by
  intro s y rest hread
  obtain ⟨x, s', hx, hy⟩ := Reader.bind_eq_ok.mp hread
  exact hf x (hr hx) hy

theorem map {f : α → β} (hr : Yields r P) (hf : ∀ x, P x → Q (f x)) : Yields (f <$> r) Q :=
  hr.bind fun x hx => Yields.pure (hf x hx)

theorem guard {p : Prop} [Decidable p] {what : String} (h : ¬ p → Yields r P) :
    Yields (if p then Reader.throwing what else r) P := by
  intro s x rest hread
  obtain ⟨hp, hread⟩ := Reader.guard_eq_ok.mp hread
  exact h hp hread

theorem throwing (what : String) : Yields (Reader.throwing what) P := by
  intro s x rest hread
  cases hread

theorem lift {y : Result α} (h : ∀ x, y = .ok x → P x) : Yields (Reader.lift y) P := by
  intro s x rest hread
  exact h x (congrArg Prod.fst hread)

theorem readFully (n : ℕ) : Yields (Reader.readFully n) fun bs => bs.length = n := by
  intro s bs rest hread
  unfold Reader.readFully at hread
  split_ifs at hread with hlen
  · cases hread
  · cases hread
    rw [List.length_take]
    omega

theorem readMany (hr : Yields r P) (n : ℕ) : Yields (Reader.readMany r n) fun xs => ∀ x ∈ xs, P x := by
  induction n with
  | zero => exact Yields.pure (by simp)
  | succ n ih =>
    exact hr.bind fun x hx => ih.bind fun xs hxs =>
      Yields.pure (by simpa using ⟨hx, fun y hy => hxs y hy⟩)

theorem readVector (hr : Yields r P) (len : ℤ) :
    Yields (Reader.readVector r len) fun xs => (xs.length : ℤ) = len ∧ ∀ x ∈ xs, P x := by
  intro s xs rest hread
  refine ⟨Reader.length_of_readVector hread, ?_⟩
  exact hr.readMany len.toNat (Reader.guard_eq_ok.mp hread).2

/-- The length in front of a vector. -/
theorem readLength : Yields (MiniNumber.getAsInt <$> MiniNumber.readDataStream)
    fun len => -2 ^ 31 ≤ len ∧ len < 2 ^ 31 := by
  refine (any _).map fun x _ => ⟨?_, x.getAsInt_lt⟩
  unfold MiniNumber.getAsInt
  omega

end Yields

/-! ## What arrives -/

/-- **`x` is written, and the bytes read back as `y`.** -/
def Transmits {α : Type} (write : α → Result (List Byte)) (read : Reader α) (x y : α) : Prop :=
  ∃ bytes, write x = .ok bytes ∧ Reads read bytes y

theorem Reads.unique {α : Type} {r : Reader α} {bs : List Byte} {x y : α} (hx : Reads r bs x)
    (hy : Reads r bs y) : x = y := by
  have h := (hx []).symm.trans (hy [])
  simpa using h

theorem Reads.yields {α : Type} {r : Reader α} {P : α → Prop} {bs : List Byte} {x : α}
    (h : Reads r bs x) (hr : Yields r P) : P x := hr (h [])

/-- A last reader that reads nothing more. -/
theorem Reads.then_pure {α β : Type} {r : Reader α} {f : α → β} {bs : List Byte} {x : α}
    (h : Reads r bs x) : Reads (r >>= fun x => Pure.pure (f x)) bs (f x) := h.map

namespace Transmits

variable {α : Type} {write : α → Result (List Byte)} {read : Reader α} {x y z : α}

theorem unique (hy : Transmits write read x y) (hz : Transmits write read x z) : y = z := by
  obtain ⟨bs, hbs, hread⟩ := hy
  obtain ⟨cs, hcs, hread'⟩ := hz
  rw [hbs, Except.ok.injEq] at hcs
  exact hread.unique (hcs ▸ hread')

theorem yields {P : α → Prop} (h : Transmits write read x y) (hr : Yields read P) : P y := by
  obtain ⟨bs, -, hread⟩ := h
  exact hread.yields hr

/-- **Vectors are transmitted entry by entry.** -/
theorem vector {xs ys : List α} (h : List.Forall₂ (Transmits write read) xs ys) :
    ∃ bytes, Crypto.concatAll (xs.map write) = .ok bytes ∧
      Reads (Reader.readVector read xs.length) bytes ys := by
  have hmany : ∃ bytes, Crypto.concatAll (xs.map write) = .ok bytes ∧
      Reads (Reader.readMany read xs.length) bytes ys := by
    induction h with
    | nil => exact ⟨[], rfl, Reads.pure []⟩
    | @cons x y xs ys hxy _ ih =>
      obtain ⟨bs, hbs, hread⟩ := hxy
      obtain ⟨cs, hcs, hreads⟩ := ih
      refine ⟨bs ++ cs, ?_, hread.bind hreads.then_pure⟩
      rw [List.map_cons, Crypto.concatAll, hbs, hcs]
      rfl
  obtain ⟨bs, hbs, hread⟩ := hmany
  refine ⟨bs, hbs, ?_⟩
  rw [Reader.readVector, Int.toNat_natCast]
  exact Reads.guard (by omega) hread

/-- **When a value makes the round trip.** Let the values with `Held` arrive as themselves, and let
every value that is written arrive as one with `Held`. Then exactly these make the round trip. -/
theorem self_iff {Held : α → Prop} (hself : Held x → Transmits write read x x)
    (hsettles : ∀ bs, write x = .ok bs → ∃ y, Transmits write read x y ∧ Held y) :
    Transmits write read x x ↔ Held x := by
  refine ⟨fun h => ?_, hself⟩
  obtain ⟨bs, hbs, -⟩ := id h
  obtain ⟨y, hy, hheld⟩ := hsettles bs hbs
  rwa [h.unique hy]

/-- A vector that is written arrives as a vector. -/
theorem settles_vector {Held : α → Prop} {xs : List α} {bs : List Byte}
    (hsettles : ∀ x ∈ xs, ∀ bs, write x = .ok bs → ∃ y, Transmits write read x y ∧ Held y)
    (h : Crypto.concatAll (xs.map write) = .ok bs) :
    ∃ ys, List.Forall₂ (Transmits write read) xs ys ∧ ∀ y ∈ ys, Held y := by
  induction xs generalizing bs with
  | nil => exact ⟨[], List.Forall₂.nil, by simp⟩
  | cons x xs ih =>
    rw [List.map_cons, Crypto.concatAll, Result.bind_eq_ok] at h
    obtain ⟨cs, hcs, h⟩ := h
    obtain ⟨ds, hds, -⟩ := Result.bind_eq_ok.mp h
    obtain ⟨y, hy, hheld⟩ := hsettles x List.mem_cons_self cs hcs
    obtain ⟨ys, hys, hall⟩ := ih (fun z hz => hsettles z (List.mem_cons_of_mem _ hz)) hds
    refine ⟨y :: ys, List.Forall₂.cons hy hys, fun z hz => ?_⟩
    rcases List.mem_cons.mp hz with rfl | hz
    · exact hheld
    · exact hall z hz

theorem forall₂_self {xs : List α} :
    List.Forall₂ (Transmits write read) xs xs ↔ ∀ x ∈ xs, Transmits write read x x :=
  List.forall₂_same

end Transmits

/-! ## Byte strings -/

namespace MiniData

theorem writeInt32BE_eq (v : ℕ) : writeInt32BE v = bytesBE 4 v := by
  simp [writeInt32BE, bytesBE]

theorem ofSigned_writeInt32BE {n : ℕ} (h : n < 2 ^ 31) : ofSigned (writeInt32BE n) = n := by
  have hsign : negativeHead (writeInt32BE n) = false := by
    rw [← Bool.not_eq_true, writeInt32BE_eq, negativeHead_bytesBE (by omega)]
    omega
  rw [ofSigned_of_nonneg hsign, writeInt32BE_eq, ofBytesBE_bytesBE_of_lt (by omega)]

theorem reads_length {n : ℕ} (h : n < 2 ^ 31) : Reads Reader.readInt32BE (writeInt32BE n) n := by
  have hread := (Reads.readFully (writeInt32BE n)).then_pure (f := ofSigned)
  rwa [ofSigned_writeInt32BE h] at hread

/-- A byte string of up to 512 MB reads back. -/
theorem reads {d : MiniData} (h : d.getLength ≤ maxMiniDataLength) :
    Reads readDataStream d.writeDataStream d := by
  have hlen : d.bytes.length ≤ 1024 * 1024 * 512 := h
  refine (reads_length (by omega)).bind ?_
  refine Reads.guard (by unfold maxMiniDataLength; omega) (Reads.guard (by omega) ?_)
  exact (Reads.readFully d.bytes).then_pure

/-- A hash of up to 64 bytes is written like any byte string, and reads back. -/
theorem writeHashToStream_eq {d : MiniData} (h : d.getLength ≤ maxHashLength) :
    d.writeHashToStream = .ok d.writeDataStream := if_neg (not_lt.mpr h)

theorem readsHash {d : MiniData} (h : d.getLength ≤ maxHashLength) :
    Reads readHashFromStream d.writeDataStream d := by
  have hlen : d.bytes.length ≤ 64 := h
  refine (reads_length (by omega)).bind ?_
  refine Reads.guard (by unfold maxHashLength; omega) (Reads.guard (by omega) ?_)
  exact (Reads.readFully d.bytes).then_pure

theorem yields : Yields readDataStream fun d => d.getLength ≤ maxMiniDataLength := by
  refine (Yields.any _).bind fun len _ => Yields.guard fun hmax => Yields.guard fun hneg => ?_
  refine (Yields.readFully _).map fun bs hbs => ?_
  rw [getLength, hbs]
  omega

theorem yieldsHash : Yields readHashFromStream fun d => d.getLength ≤ maxHashLength := by
  refine (Yields.any _).bind fun len _ => Yields.guard fun hmax => Yields.guard fun hneg => ?_
  refine (Yields.readFully _).map fun bs hbs => ?_
  rw [getLength, hbs]
  omega

end MiniData

/-! ## Numbers -/

namespace MiniNumber

theorem ofInt8_int8Byte {v : ℤ} (h1 : -128 ≤ v) (h2 : v < 128) : ofInt8 (int8Byte v) = v := by
  have hbyte : (int8Byte v).toNat = (v % 256).toNat := by
    rw [int8Byte, UInt8.toNat_ofNat']
    omega
  unfold ofInt8
  rw [hbyte]
  split_ifs with h <;> omega

/-- The width that the writer gives a negative number holds it. -/
theorem toTwosComplementBytes_of_neg {v : ℤ} (h : v < 0) :
    ∃ w, toTwosComplementBytes v = bytesBE (w + 1) (256 ^ (w + 1) - v.natAbs) ∧
      v.natAbs ≤ 128 * 256 ^ w ∧ 8 * w ≤ Nat.log 2 v.natAbs + 1 := by
  have hm : 0 < v.natAbs := by omega
  set nbits := Nat.log 2 v.natAbs + 1
  obtain ⟨w, hw⟩ : ∃ w, (nbits + 1 + 7) / 8 = w + 1 := ⟨(nbits + 1 + 7) / 8 - 1, by omega⟩
  have hle : v.natAbs ≤ 128 * 256 ^ w := by
    have hlt : v.natAbs < 2 ^ nbits := Nat.lt_pow_succ_log_self (by norm_num) _
    have hexp : 128 * 256 ^ w = 2 ^ (8 * w + 7) := by
      rw [pow_add, pow_mul, mul_comm]
      rfl
    have hmono : 2 ^ nbits ≤ 2 ^ (8 * w + 7) := Nat.pow_le_pow_right (by norm_num) (by omega)
    omega
  have hpow : 2 ^ (8 * (w + 1)) = 256 ^ (w + 1) := by
    rw [pow_mul]
    norm_num
  refine ⟨w, ?_, hle, by omega⟩
  unfold toTwosComplementBytes
  rw [if_neg (by omega), if_neg (by omega)]
  show (if negativeHead (bytesBE ((nbits + 1 + 7) / 8) (2 ^ (8 * ((nbits + 1 + 7) / 8)) - v.natAbs))
    then _ else _) = _
  rw [hw, hpow, if_pos (negativeHead_negative hm hle)]

/-- **The two's complement of the writer** stands for the number. -/
theorem ofSigned_toTwosComplementBytes (v : ℤ) : ofSigned (toTwosComplementBytes v) = v := by
  rcases lt_or_ge v 0 with h | h
  · obtain ⟨w, hbytes, hle, -⟩ := toTwosComplementBytes_of_neg h
    rw [hbytes, ofSigned_negative (by omega) hle]
    omega
  · unfold toTwosComplementBytes
    split_ifs with h0 hpos
    · rw [h0]
      rfl
    · rw [ofSigned_positiveBytes]
      omega
    · omega

/-- Sixty-four digits fit in the 32 bytes that the reader takes. -/
theorem length_toTwosComplementBytes_le {v : ℤ} (hv : |v| < 10 ^ maxDigits) :
    (toTwosComplementBytes v).length ≤ 32 := by
  have hnat : v.natAbs < 10 ^ 64 := by
    rw [Int.abs_eq_natAbs] at hv
    exact_mod_cast hv
  rcases lt_or_ge v 0 with h | h
  · obtain ⟨w, hbytes, -, hw⟩ := toTwosComplementBytes_of_neg h
    have hlog : Nat.log 2 v.natAbs < 213 :=
      Nat.log_lt_of_lt_pow (by omega) (hnat.trans (by norm_num))
    rw [hbytes, length_bytesBE]
    omega
  · unfold toTwosComplementBytes
    split_ifs with h0 hpos
    · simp
    · exact length_positiveBytes_le (hnat.trans (by norm_num))
    · omega

/-- A number inside the limits has a scale that fits in a byte. -/
theorem Canonical.scale_bounds {x : MiniNumber} (h : x.Canonical) : -128 ≤ x.scale ∧ x.scale < 128 := by
  refine ⟨?_, lt_of_le_of_lt h.places (by decide)⟩
  by_contra hlt
  have hne : x.unscaled ≠ 0 := fun h0 => by
    have := h.zero_scale h0
    omega
  -- a nonzero multiple of `10^128` is out of range
  have hone : (1 : ℚ) ≤ (|x.unscaled| : ℤ) := by exact_mod_cast Int.one_le_abs hne
  have hpow : (10 : ℚ) ^ (128 : ℤ) ≤ (10 : ℚ) ^ (-x.scale) :=
    zpow_le_zpow_right₀ (by norm_num) (by omega)
  have hbound := h.bound
  rw [toRat, abs_value, value] at hbound
  have hprod : (1 : ℚ) * 10 ^ (128 : ℤ) ≤ (|x.unscaled| : ℤ) * 10 ^ (-x.scale) := by gcongr
  have hmax : ((maxValue : ℤ) : ℚ) < 1 * 10 ^ (128 : ℤ) := by norm_num [maxValue]
  exact absurd (hprod.trans hbound) (not_le.mpr hmax)

/-- **A number inside the limits reads back.** -/
theorem reads {x : MiniNumber} (h : x.Canonical) : Reads readDataStream x.writeDataStream x := by
  have hlen := length_toTwosComplementBytes_le h.digits
  have hscale := ofInt8_int8Byte h.scale_bounds.1 h.scale_bounds.2
  set bytes := toTwosComplementBytes x.unscaled with hbytes
  have hlenByte : ofInt8 (int8Byte bytes.length) = bytes.length :=
    ofInt8_int8Byte (by omega) (by omega)
  have hvalue : applyMathContextDefault ⟨ofSigned bytes, ofInt8 (int8Byte x.scale)⟩ = x := by
    rw [hbytes, ofSigned_toTwosComplementBytes, hscale, applyMathContextDefault_of_lt h.digits]
    obtain ⟨u, s⟩ := x
    by_cases h0 : u = 0
    · have hs := h.zero_scale h0
      simp_all
    · simp [h0]
  refine (Reads.readByte _).bind ((Reads.readByte _).bind (Reads.guard ?_ ?_))
  · rw [hlenByte]
    omega
  · rw [hlenByte, Int.toNat_natCast]
    have hread := (Reads.readFully bytes).then_pure
      (f := fun bs => applyMathContextDefault ⟨ofSigned bs, ofInt8 (int8Byte x.scale)⟩)
    rwa [hvalue] at hread

/-- **Text and bytes**: a number inside the limits prints and parses to an equal number with the same
text, and reads back from its bytes, which are all that the reader takes. -/
theorem text_and_bytes {x : MiniNumber} (h : x.Canonical) :
    (∃ y, ofText x.toText = .ok y ∧ y.isEqual x = true ∧ y.toText = x.toText) ∧
      Reads readDataStream x.writeDataStream x := by
  refine ⟨?_, reads h⟩
  obtain ⟨y, hy, -, hvalue⟩ := ofText_toText h
  exact ⟨y, hy, (isEqual_iff y x).mpr hvalue, toText_of_ofText h hy⟩

/-- `-12.50`, which loses a zero as text and nothing as bytes. -/
theorem text_and_bytes_negative :
    (∃ y, ofText (toText ⟨-1250, 2⟩) = .ok y ∧ y.isEqual ⟨-1250, 2⟩ = true ∧
      y.toText = toText ⟨-1250, 2⟩) ∧
      Reads readDataStream (writeDataStream ⟨-1250, 2⟩) ⟨-1250, 2⟩ :=
  text_and_bytes (by decide +kernel)

theorem canonical_ofInt {v : ℤ} (h : |v| < 10 ^ 64) : (ofInt v).Canonical :=
  canonical_of_checked (checked_ofInt h)

theorem getAsInt_ofInt {v : ℤ} (h1 : -2 ^ 31 ≤ v) (h2 : v < 2 ^ 31) : (ofInt v).getAsInt = v := by
  have hbig : (ofInt v).getAsBigInteger = v := by
    simp [getAsBigInteger, ofInt]
  rw [getAsInt, hbig]
  omega

/-- An `int` reads back as itself. -/
theorem reads_int {v : ℤ} (h1 : -2 ^ 31 ≤ v) (h2 : v < 2 ^ 31) :
    Reads (getAsInt <$> readDataStream) (ofInt v).writeDataStream v := by
  have hcanonical : (ofInt v).Canonical := canonical_ofInt (by
    rw [abs_lt]
    constructor <;> omega)
  have hread := (reads hcanonical).map (f := getAsInt)
  rwa [getAsInt_ofInt h1 h2] at hread

/-- The length of a vector reads back. -/
theorem reads_count {n : ℕ} (h : n < 2 ^ 31) :
    Reads (getAsInt <$> readDataStream) (ofInt n).writeDataStream n :=
  reads_int (by omega) (by omega)

end MiniNumber

end Minima
