import Mathlib

/-! # `MiniData`: byte strings, and the two ways a call can fail

The base value of the node is `MiniData`, a vector of bytes. Hashes, keys, addresses, token ids
and coin ids are all `MiniData`. This file also fixes what a call can end in besides a value:

* **`Fault.exception`** — a C++ exception, which the enclosing `try` blocks of the node catch.
* **`Fault.undefined`** — undefined behaviour (a null dereference, a vector index out of range),
  which nothing catches.

Streams are byte lists: writing appends, and a reader consumes a prefix. -/

namespace Minima

/-- How a call of the node can fail: by throwing, or by running into undefined behaviour. -/
inductive Fault where
  /-- A thrown C++ exception with its text. -/
  | exception (what : String)
  /-- Undefined behaviour: no handler sees it. -/
  | undefined (what : String)
  deriving DecidableEq, Repr

/-- The outcome of a call that may fail. -/
abbrev Result (α : Type) := Except Fault α

/-- Throw a C++ exception with text `what`. -/
def throwException {α : Type} (what : String) : Result α := .error (.exception what)

/-- A call throws an exception. -/
def Throws {α : Type} (x : Result α) : Prop := ∃ what, x = .error (.exception what)

/-- Run into undefined behaviour. -/
def undefinedBehaviour {α : Type} (what : String) : Result α := .error (.undefined what)

@[simp] theorem throwException_ne_ok {α : Type} (what : String) (a : α) :
    throwException what ≠ .ok a := by simp [throwException]

@[simp] theorem undefinedBehaviour_ne_ok {α : Type} (what : String) (a : α) :
    undefinedBehaviour what ≠ .ok a := by simp [undefinedBehaviour]

/-- **Peel a bind.** A sequenced call returns exactly when its first half returns a value on which
the second half returns. -/
theorem Result.bind_eq_ok {α β : Type} {x : Result α} {f : α → Result β} {b : β} :
    (x >>= f) = .ok b ↔ ∃ a, x = .ok a ∧ f a = .ok b := by
  cases x with
  | error e => simp [bind, Except.bind]
  | ok a => simp [bind, Except.bind]

/-- **Peel a map.** -/
theorem Result.map_eq_ok {α β : Type} {x : Result α} {f : α → β} {b : β} :
    (f <$> x) = .ok b ↔ ∃ a, x = .ok a ∧ f a = b := by
  cases x with
  | error e => simp [Functor.map, Except.map]
  | ok a => simp [Functor.map, Except.map]

@[simp] theorem Result.pure_eq_ok {α : Type} {a b : α} :
    (pure a : Result α) = .ok b ↔ a = b := by
  simp [pure, Except.pure]

@[simp] theorem Result.ok_bind {α β : Type} (a : α) (f : α → Result β) :
    ((.ok a : Result α) >>= f) = f a := rfl

/-- What `mapM` returns for a list, it returned item by item. -/
theorem forall₂_of_mapM {α β : Type} {f : α → Result β} {xs : List α} {ys : List β}
    (h : xs.mapM f = .ok ys) : List.Forall₂ (fun x y => f x = .ok y) xs ys := by
  induction xs generalizing ys with
  | nil =>
    rw [List.mapM_nil] at h
    exact Except.ok.inj h ▸ .nil
  | cons x xs ih =>
    rw [List.mapM_cons] at h
    obtain ⟨y, hy, h⟩ := Result.bind_eq_ok.mp h
    obtain ⟨zs, hzs, h⟩ := Result.bind_eq_ok.mp h
    exact Except.ok.inj h ▸ .cons hy (ih hzs)

/-! ## Byte strings -/

/-- A byte of a stream. -/
abbrev Byte := UInt8

/-- `MiniData`: a vector of bytes. -/
structure MiniData where
  bytes : List Byte
  deriving DecidableEq, Repr, Inhabited

namespace MiniData

/-- `getLength`. -/
def getLength (d : MiniData) : ℕ := d.bytes.length

/-- `isEqual`: same length and the same bytes. -/
def isEqual (a b : MiniData) : Bool :=
  a.bytes.length == b.bytes.length && a.bytes == b.bytes

@[simp] theorem isEqual_iff (a b : MiniData) : a.isEqual b = true ↔ a = b := by
  cases a; cases b
  simp only [isEqual, Bool.and_eq_true, beq_iff_eq, mk.injEq]
  exact ⟨fun h => h.2, fun h => ⟨congrArg _ h, h⟩⟩

/-- `MINIMA_MAX_HASH_LENGTH`: no hash on the wire is longer. -/
def maxHashLength : ℕ := 64

/-- `MINIMA_MAX_MINIDATA_LENGTH`: 512 MB. -/
def maxMiniDataLength : ℕ := 1024 * 1024 * 512

/-- `ZERO_TXPOWID`, the single byte `0x00`. It is also the Minima token id. -/
def zeroTxPowID : MiniData := ⟨[0]⟩

/-- `ONE_TXPOWID`, the single byte `0x01`. -/
def oneTxPowID : MiniData := ⟨[1]⟩

/-- `writeInt32BE`: the low 32 bits, most significant byte first. -/
def writeInt32BE (v : ℕ) : List Byte :=
  [UInt8.ofNat (v / 2 ^ 24), UInt8.ofNat (v / 2 ^ 16), UInt8.ofNat (v / 2 ^ 8), UInt8.ofNat v]

/-- `writeDataStream`: the length in four bytes, then the bytes. -/
def writeDataStream (d : MiniData) : List Byte := writeInt32BE d.bytes.length ++ d.bytes

/-- `writeHashToStream`: as `writeDataStream`, but a hash longer than 64 bytes throws. -/
def writeHashToStream (d : MiniData) : Result (List Byte) :=
  if maxHashLength < d.bytes.length then
    throwException ("Write Error : HASH Length greater than 64! " ++ toString d.bytes.length)
  else pure d.writeDataStream

@[simp] theorem length_writeInt32BE (v : ℕ) : (writeInt32BE v).length = 4 := rfl

/-- The four length bytes determine a length below `2^32`. -/
theorem writeInt32BE_inj {v w : ℕ} (hv : v < 2 ^ 32) (hw : w < 2 ^ 32)
    (h : writeInt32BE v = writeInt32BE w) : v = w := by
  simp only [writeInt32BE, List.cons.injEq, and_true] at h
  obtain ⟨h3, h2, h1, h0⟩ := h
  have e3 := congrArg UInt8.toNat h3
  have e2 := congrArg UInt8.toNat h2
  have e1 := congrArg UInt8.toNat h1
  have e0 := congrArg UInt8.toNat h0
  simp only [UInt8.toNat_ofNat'] at e0 e1 e2 e3
  omega

/-- **The length prefix makes the encoding self-delimiting.** Two encodings of byte strings below
`2^32` bytes that begin the same stream are encodings of the same bytes, with the same rest. -/
theorem writeDataStream_append_inj {a b : MiniData} {s t : List Byte}
    (ha : a.bytes.length < 2 ^ 32) (hb : b.bytes.length < 2 ^ 32)
    (h : a.writeDataStream ++ s = b.writeDataStream ++ t) : a = b ∧ s = t := by
  unfold writeDataStream at h
  rw [List.append_assoc, List.append_assoc] at h
  obtain ⟨hlen, hrest⟩ := List.append_inj h rfl
  have hl := writeInt32BE_inj ha hb hlen
  obtain ⟨hbytes, hst⟩ := List.append_inj hrest hl
  exact ⟨by cases a; cases b; simp_all, hst⟩

end MiniData

end Minima
