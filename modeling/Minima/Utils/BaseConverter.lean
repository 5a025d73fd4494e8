import Minima.Base.MiniData

/-! # `BaseConverter`: byte strings as hexadecimal text

A text is a `std::string`, a list of bytes. `to0xString` prints a `MiniData`, and the constructor of
`MiniData` from a text reads it back: an optional `0x`, then digits of either case.

* **`decode16_encode16`** — printing loses nothing.
* **`to0xString_injective`** — so two byte strings with the same text are the same. -/

namespace Minima

/-- A `std::string`. -/
abbrev Text := List Byte

instance instLawfulBEqText : LawfulBEq Text := inferInstance

namespace BaseConverter

/-- The character of a hexadecimal digit, upper case. -/
def hexDigit (n : ℕ) : Byte := if n < 10 then UInt8.ofNat (48 + n) else UInt8.ofNat (55 + n)

/-- `hex_nibble` of an upper case digit. -/
def hexNibble (c : Byte) : Option ℕ :=
  if 48 ≤ c ∧ c ≤ 57 then some (c.toNat - 48)
  else if 65 ≤ c ∧ c ≤ 70 then some (c.toNat - 55)
  else none

/-- `to_upper_ascii` on one character. -/
def toUpper (c : Byte) : Byte := if 97 ≤ c ∧ c ≤ 122 then c - 32 else c

/-- `encode16`: nothing for no bytes, else `0x` and two digits a byte. -/
def encode16 (bytes : List Byte) : Text :=
  if bytes.isEmpty then []
  else 48 :: 120 :: bytes.flatMap fun b => [hexDigit (b.toNat / 16), hexDigit (b.toNat % 16)]

/-- Pairs of digits, high before low. -/
def decodePairs : List Byte → Option (List Byte)
  | [] => some []
  | [_] => none
  | hi :: lo :: rest => do
      let h ← hexNibble hi
      let l ← hexNibble lo
      let bs ← decodePairs rest
      return UInt8.ofNat (16 * h + l) :: bs

/-- Drop a leading `0x` or `0X`. -/
def dropPrefix : Text → Text
  | 48 :: 120 :: rest => rest
  | 48 :: 88 :: rest => rest
  | hex => hex

/-- `decode16`: a text of odd length is padded in front; another character than a digit throws. -/
def decode16 (zHex : Text) : Result (List Byte) :=
  let hex := (dropPrefix zHex).map toUpper
  let hex := if hex.length % 2 = 0 then hex else 48 :: hex
  match decodePairs hex with
  | some data => .ok data
  | none => throwException "Invalid HEX string in decode16"

/-! ## Round trip -/

theorem toUpper_hexDigit {n : ℕ} (h : n < 16) : toUpper (hexDigit n) = hexDigit n := by
  interval_cases n <;> decide

theorem hexNibble_hexDigit {n : ℕ} (h : n < 16) : hexNibble (hexDigit n) = some n := by
  interval_cases n <;> decide

/-- The two digits of a byte. -/
def byteDigits (b : Byte) : List Byte := [hexDigit (b.toNat / 16), hexDigit (b.toNat % 16)]

theorem decodePairs_byteDigits (bytes : List Byte) :
    decodePairs (bytes.flatMap byteDigits) = some bytes := by
  induction bytes with
  | nil => rfl
  | cons b bs ih =>
      have hb := b.toNat_lt
      have hhi : b.toNat / 16 < 16 := by omega
      have hlo : b.toNat % 16 < 16 := Nat.mod_lt _ (by norm_num)
      rw [List.flatMap_cons, byteDigits, List.cons_append, List.cons_append, List.nil_append,
        decodePairs, hexNibble_hexDigit hhi, hexNibble_hexDigit hlo, ih]
      simp only [Option.bind_eq_bind, Option.bind_some, Option.pure_def, Option.some.injEq,
        List.cons.injEq, and_true]
      rw [Nat.div_add_mod, UInt8.ofNat_toNat]

theorem map_toUpper_byteDigits (bytes : List Byte) :
    (bytes.flatMap byteDigits).map toUpper = bytes.flatMap byteDigits := by
  induction bytes with
  | nil => rfl
  | cons b bs ih =>
      have hb := b.toNat_lt
      rw [List.flatMap_cons, List.map_append, ih, byteDigits, List.map_cons, List.map_cons,
        List.map_nil, toUpper_hexDigit (by omega), toUpper_hexDigit (Nat.mod_lt _ (by norm_num))]

theorem length_byteDigits (bytes : List Byte) :
    (bytes.flatMap byteDigits).length = 2 * bytes.length := by
  induction bytes with
  | nil => rfl
  | cons b bs ih =>
      rw [List.flatMap_cons, List.length_append, ih, List.length_cons, byteDigits]
      simp only [List.length_cons, List.length_nil]
      omega

/-- **Reading back a printed byte string returns it.** -/
theorem decode16_encode16 (bytes : List Byte) : decode16 (encode16 bytes) = .ok bytes := by
  cases bytes with
  | nil => rfl
  | cons b bs =>
      have henc : encode16 (b :: bs) = 48 :: 120 :: (b :: bs).flatMap byteDigits := rfl
      rw [henc, decode16, dropPrefix, map_toUpper_byteDigits, length_byteDigits,
        if_pos (Nat.mul_mod_right _ _), decodePairs_byteDigits]

end BaseConverter

namespace MiniData

/-- `to0xString`. -/
def to0xString (d : MiniData) : Text := BaseConverter.encode16 d.bytes

/-- The constructor from a hexadecimal text. -/
def ofHex (zHexString : Text) : Result MiniData := do
  let bytes ← BaseConverter.decode16 zHexString
  return ⟨bytes⟩

@[simp] theorem ofHex_to0xString (d : MiniData) : ofHex d.to0xString = .ok d := by
  rw [ofHex, to0xString, BaseConverter.decode16_encode16]
  rfl

theorem to0xString_injective {a b : MiniData} (h : a.to0xString = b.to0xString) : a = b := by
  have ha := ofHex_to0xString a
  rw [h, ofHex_to0xString, Except.ok.injEq] at ha
  exact ha.symm

end MiniData

end Minima
