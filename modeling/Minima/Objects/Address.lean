import Minima.Utils.Base32
import Minima.Utils.Crypto

/-! # `Address`: the text form with a checksum

An address is printed as the base 32 text of a byte that is not zero, the length on two bytes, the data
and the first four bytes of its hash. The first byte keeps the zeros at the front of the rest.

* **`convertMinimaAddress_eq_ok`** — which byte strings the decoder takes for an address.
* **`minimaAddress_checked_iff`** — addresses come back, and which texts are accepted against their
  length field. -/

namespace Minima.Address

open BaseConverter

/-- The bytes that `makeMinimaAddress` prints: a one, the low 16 bits of the length, the data and the
checksum. -/
def origdata (data hash : List Byte) : List Byte :=
  let len16 := data.length % 2 ^ 16
  1 :: UInt8.ofNat (len16 / 256) :: UInt8.ofNat len16 :: (data ++ hash.take 4)

/-- `makeMinimaAddress`. -/
def makeMinimaAddress (C : Crypto) (zAddress : MiniData) : Result Text :=
  let hash := C.hashData zAddress.bytes
  if hash.length < 4 then throwException "Invalid MxAddress - hash too short"
  else .ok (encode32 (origdata zAddress.bytes hash))

/-- The part of `convertMinimaAddress` behind the conversion from base 32. The texts of its exceptions
also name the address. -/
def readAddress (C : Crypto) : List Byte → Result MiniData
  | one :: hi :: lo :: rest =>
    if rest.length < 4 then throwException "Invalid MxAddress :  insufficient data"
    else if one ≠ 1 then throwException "Invalid MxAddress - should start with 1 "
    else
      let datalen := hi.toNat * 256 + lo.toNat
      if rest.length < datalen + 4 then throwException "Invalid MxAddress :  invalid lengths"
      else
        let data := rest.take datalen
        let checksum := (rest.drop datalen).take 4
        let hash := C.hashData data
        if hash.length < 4 then throwException "Invalid MxAddress :  hash too short"
        else if hash.take 4 ≠ checksum then throwException "Invalid MxAddress - checksum wrong for "
        else .ok ⟨data⟩
  | _ => throwException "Invalid MxAddress :  insufficient data"

/-- `convertMinimaAddress`. -/
def convertMinimaAddress (C : Crypto) (zMinimAddress : Text) : Result MiniData := do
  let decode ← decode32 zMinimAddress
  readAddress C decode

/-! ## The decoder -/

/-- The two bytes of a length. -/
theorem length_bytes {n : ℕ} (h : n < 2 ^ 16) :
    (UInt8.ofNat (n % 2 ^ 16 / 256)).toNat * 256 + (UInt8.ofNat (n % 2 ^ 16)).toNat = n := by
  rw [UInt8.toNat_ofNat', UInt8.toNat_ofNat']
  omega

/-- The length field gives back its bytes. -/
theorem bytes_length (hi lo : Byte) :
    UInt8.ofNat ((hi.toNat * 256 + lo.toNat) % 2 ^ 16 / 256) = hi ∧
      UInt8.ofNat ((hi.toNat * 256 + lo.toNat) % 2 ^ 16) = lo := by
  have hhi := UInt8.toNat_lt hi
  have hlo := UInt8.toNat_lt lo
  rw [← UInt8.toNat_inj, ← UInt8.toNat_inj, UInt8.toNat_ofNat', UInt8.toNat_ofNat']
  omega

variable {C : Crypto}

/-- **What the decoder takes for an address**: the bytes that are printed for the data, and whatever
follows them. -/
theorem readAddress_eq_ok {decode : List Byte} {d : MiniData} :
    readAddress C decode = .ok d ↔
      4 ≤ (C.hashData d.bytes).length ∧ d.bytes.length < 2 ^ 16 ∧
        ∃ extra, decode = origdata d.bytes (C.hashData d.bytes) ++ extra := by
  constructor
  · intro h
    unfold readAddress at h
    split at h
    next one hi lo rest =>
      dsimp only at h
      split_ifs at h with hshort hone hlength hhash hchecksum
      all_goals try exact absurd h (throwException_ne_ok _ _)
      obtain rfl : (⟨rest.take (hi.toNat * 256 + lo.toNat)⟩ : MiniData) = d := Except.ok.inj h
      have hlo := UInt8.toNat_lt lo
      have hhi := UInt8.toNat_lt hi
      have htaken : (rest.take (hi.toNat * 256 + lo.toNat)).length = hi.toNat * 256 + lo.toNat := by
        rw [List.length_take]
        omega
      obtain ⟨hbytehi, hbytelo⟩ := bytes_length hi lo
      rw [not_not] at hone hchecksum
      refine ⟨not_lt.mp hhash, by rw [htaken]; omega,
        (rest.drop (hi.toNat * 256 + lo.toNat)).drop 4, ?_⟩
      -- the rest is the data, the checksum and what follows
      simp only [origdata, htaken, hbytehi, hbytelo, hone, hchecksum, List.cons_append, List.append_assoc,
        List.take_append_drop]
    next => exact absurd h (throwException_ne_ok _ _)
  · rintro ⟨hhash, hlen, extra, rfl⟩
    have hfour : ((C.hashData d.bytes).take 4).length = 4 := by
      rw [List.length_take]
      omega
    simp only [origdata, List.cons_append, List.append_assoc]
    unfold readAddress
    dsimp only
    rw [length_bytes hlen, List.take_left, List.drop_left, List.take_left' hfour, if_neg, if_neg (by simp),
      if_neg, if_neg (not_lt.mpr hhash), if_neg (by simp)]
    · rw [List.length_append, List.length_append, hfour]
      omega
    · rw [List.length_append, List.length_append, hfour]
      omega

/-- The decoder returns or throws. -/
theorem readAddress_ok_or_throws (decode : List Byte) :
    (∃ d, readAddress C decode = .ok d) ∨ Throws (readAddress C decode) := by
  unfold readAddress
  split
  next =>
    dsimp only
    split_ifs
    all_goals first
      | exact .inr ⟨_, rfl⟩
      | exact .inl ⟨_, rfl⟩
  next => exact .inr ⟨_, rfl⟩

theorem convertMinimaAddress_of_decode {text : Text} {decode : List Byte}
    (h : decode32 text = .ok decode) : convertMinimaAddress C text = readAddress C decode := by
  rw [convertMinimaAddress, h]
  rfl

/-! ## Round trips and checks -/

/-- The decoded bytes are an address: a byte, the length of the data, the data and the checksum. -/
def Matches (C : Crypto) (decode : List Byte) : Prop :=
  ∃ one hi lo data checksum, decode = one :: hi :: lo :: (data ++ checksum) ∧
    data.length = hi.toNat * 256 + lo.toNat ∧ checksum.length = 4 ∧ checksum = (C.hashData data).take 4

/-- The bytes that are printed match. -/
theorem matches_origdata (hhash : ∀ bytes, 4 ≤ (C.hashData bytes).length) {data : List Byte}
    (hlen : data.length < 2 ^ 16) : Matches C (origdata data (C.hashData data)) := by
  refine ⟨1, _, _, data, _, rfl, (length_bytes hlen).symm, ?_, rfl⟩
  rw [List.length_take]
  exact Nat.min_eq_left (hhash data)

/-- Bytes behind an address make its length field wrong. -/
theorem not_matches_append {data hash extra : List Byte} (hhash : 4 ≤ hash.length)
    (hlen : data.length < 2 ^ 16) (hextra : extra ≠ []) : ¬ Matches C (origdata data hash ++ extra) := by
  rintro ⟨one, hi, lo, data', checksum, hdecode, hlength, hfour, -⟩
  simp only [origdata, List.cons_append, List.append_assoc, List.cons.injEq] at hdecode
  obtain ⟨-, rfl, rfl, hrest⟩ := hdecode
  rw [length_bytes hlen] at hlength
  have hlengths := congrArg List.length hrest
  rw [List.length_append, List.length_append, List.length_append, List.length_take,
    Nat.min_eq_left hhash, hlength, hfour] at hlengths
  have hpos := List.length_pos_iff.mpr hextra
  omega

/-- **Addresses come back, and what is accepted against the length field.** An address of up to 65535
bytes is printed and read back. A text whose length field or checksum does not match its data is rejected
exactly when it is not an address with further bytes behind its checksum. -/
theorem minimaAddress_checked_iff (C : Crypto) (hhash : ∀ bytes, 4 ≤ (C.hashData bytes).length) :
    (∀ d : MiniData, d.bytes.length ≤ 65535 →
      ∃ text, makeMinimaAddress C d = .ok text ∧ convertMinimaAddress C text = .ok d) ∧
    ∀ text : Text,
      (∀ decode, decode32 text = .ok decode → ¬ Matches C decode → Throws (convertMinimaAddress C text)) ↔
        ¬ ∃ data extra : List Byte, data.length ≤ 65535 ∧ extra ≠ [] ∧
          decode32 text = .ok (origdata data (C.hashData data) ++ extra) := by
  refine ⟨fun d hd => ⟨_, if_neg (not_lt.mpr (hhash _)), ?_⟩, fun text => ⟨?_, ?_⟩⟩
  · rw [convertMinimaAddress_of_decode (decode32_encode32 _), readAddress_eq_ok]
    refine ⟨hhash _, by omega, [], ?_⟩
    rw [List.append_nil, origdata, BigEndian.trim_cons (by decide)]
  · rintro h ⟨data, extra, hlen, hextra, hdecode⟩
    obtain ⟨what, hthrows⟩ := h _ hdecode (not_matches_append (hhash data) (by omega) hextra)
    have hok : readAddress C (origdata data (C.hashData data) ++ extra) = .ok ⟨data⟩ :=
      readAddress_eq_ok.mpr ⟨hhash data, Nat.lt_succ_of_le hlen, extra, rfl⟩
    rw [convertMinimaAddress_of_decode hdecode, hok] at hthrows
    cases hthrows
  · intro h decode hdecode hmismatch
    rw [convertMinimaAddress_of_decode hdecode]
    refine (readAddress_ok_or_throws decode).resolve_left ?_
    rintro ⟨d, hok⟩
    obtain ⟨-, hlen, extra, rfl⟩ := readAddress_eq_ok.mp hok
    by_cases hextra : extra = []
    · rw [hextra, List.append_nil] at hmismatch
      exact hmismatch (matches_origdata hhash hlen)
    · exact h ⟨d.bytes, extra, by omega, hextra, hdecode⟩

/-- An address that begins with zeros. -/
def zerosFirst : MiniData := ⟨[0, 0, 5]⟩

/-- SHA3-256 as far as this address and the empty byte string. -/
def sampleHash : Crypto :=
  ⟨fun bytes =>
    if bytes = zerosFirst.bytes then
      [0x3E, 0x6B, 0xD2, 0x62, 0xE4, 0x15, 0xF7, 0x95, 0xF7, 0x33, 0x28, 0xBB, 0x63, 0x90, 0x5E, 0x69,
      0xD3, 0xB2, 0x5A, 0x37, 0x06, 0xC3, 0x01, 0x9E, 0xF5, 0x48, 0x91, 0x3D, 0x11, 0x17, 0xDC, 0xBD]
    else
      [0xA7, 0xFF, 0xC6, 0xF8, 0xBF, 0x1E, 0xD7, 0x66, 0x51, 0xC1, 0x47, 0x56, 0xA0, 0x61, 0xD6, 0x62,
      0xF5, 0x80, 0xFF, 0x4D, 0xE4, 0x3B, 0x49, 0xFA, 0x82, 0xD8, 0x0A, 0x4B, 0x80, 0xF8, 0x43, 0x4A]⟩

theorem four_le_sampleHash (bytes : List Byte) : 4 ≤ (sampleHash.hashData bytes).length := by
  unfold sampleHash
  dsimp only
  split_ifs <;> decide

/-- The address of no bytes, followed by a zero byte. -/
def longText : Text := encode32 [1, 0, 0, 0xA7, 0xFF, 0xC6, 0xF8, 0]

theorem minimaAddress_checked_iff_zerosFirst :
    (∃ text, makeMinimaAddress sampleHash zerosFirst = .ok text ∧
        convertMinimaAddress sampleHash text = .ok zerosFirst) ∧
      ((∀ decode, decode32 longText = .ok decode → ¬ Matches sampleHash decode →
          Throws (convertMinimaAddress sampleHash longText)) ↔
        ¬ ∃ data extra : List Byte, data.length ≤ 65535 ∧ extra ≠ [] ∧
          decode32 longText = .ok (origdata data (sampleHash.hashData data) ++ extra)) :=
  have h := minimaAddress_checked_iff sampleHash four_le_sampleHash
  ⟨h.1 zerosFirst (by decide), h.2 longText⟩

/-- **A wrong length is accepted**: the decoded length field says no bytes, the decoded data has one. -/
theorem convertMinimaAddress_accepts :
    decode32 longText = .ok [1, 0, 0, 0xA7, 0xFF, 0xC6, 0xF8, 0] ∧
      ¬ Matches sampleHash [1, 0, 0, 0xA7, 0xFF, 0xC6, 0xF8, 0] ∧
      ¬ Throws (convertMinimaAddress sampleHash longText) := by
  have hdecode : decode32 longText = .ok [1, 0, 0, 0xA7, 0xFF, 0xC6, 0xF8, 0] := decode32_encode32 _
  refine ⟨hdecode, ?_, ?_⟩
  · exact not_matches_append (four_le_sampleHash []) (by decide : [].length < 2 ^ 16)
      (by decide : [(0 : Byte)] ≠ [])
  · rintro ⟨what, hthrows⟩
    have hread : readAddress sampleHash [1, 0, 0, 0xA7, 0xFF, 0xC6, 0xF8, 0] = .ok ⟨[]⟩ :=
      readAddress_eq_ok.mpr ⟨four_le_sampleHash [], by decide, [0], rfl⟩
    rw [convertMinimaAddress_of_decode hdecode, hread] at hthrows
    cases hthrows

end Minima.Address
