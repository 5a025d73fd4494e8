import Minima.Base.MiniNumber

/-! # Reading from a stream

A reader takes what it needs from the front of a stream and leaves the rest; a stream that is cut
short or malformed throws, and stays where the reader stopped. These are the readers of the base
values.

* **`Reads`** — a reader takes exactly these bytes and makes this value of them.
* **`Reads.bind`** — readers in sequence. -/

namespace Minima

open TwosComplement

/-- A reader of a stream: the outcome, and what is left of the stream. After a read beyond the end
nothing is left, so that every later read fails too. -/
def Reader (α : Type) := List Byte → Result α × List Byte

namespace Reader

instance : Monad Reader where
  pure x := fun s => (.ok x, s)
  bind r f := fun s =>
    match r s with
    | (.ok x, rest) => f x rest
    | (.error e, rest) => (.error e, rest)

/-- Throw a C++ exception. -/
def throwing {α : Type} (what : String) : Reader α := fun s => (throwException what, s)

/-- A computation that does not touch the stream. -/
def lift {α : Type} (x : Result α) : Reader α := fun s => (x, s)

/-- The next byte. -/
def readByte : Reader Byte
  | [] => (throwException "MiniByte::readDataStream failed", [])
  | b :: rest => (.ok b, rest)

/-- `readFully`: the next `n` bytes. -/
def readFully (n : ℕ) : Reader (List Byte) := fun s =>
  if s.length < n then (throwException "readFully failed", []) else (.ok (s.take n), s.drop n)

/-- `readInt32BE`: four bytes as a signed integer. -/
def readInt32BE : Reader ℤ := do
  let bs ← readFully 4
  return ofSigned bs

theorem bind_of_ok {α β : Type} {r : Reader α} {s rest : List Byte} {x : α} (h : r s = (.ok x, rest))
    (f : α → Reader β) : (r >>= f) s = f x rest := by
  show (match r s with
    | (.ok x, s') => f x s'
    | (.error e, s') => (.error e, s')) = _
  rw [h]

theorem bind_of_error {α β : Type} {r : Reader α} {s rest : List Byte} {e : Fault}
    (h : r s = (.error e, rest)) (f : α → Reader β) : (r >>= f) s = (.error e, rest) := by
  show (match r s with
    | (.ok x, s') => f x s'
    | (.error e, s') => (.error e, s')) = _
  rw [h]

/-- **Peel a bind of readers.** -/
theorem bind_eq_ok {α β : Type} {r : Reader α} {f : α → Reader β} {s rest : List Byte} {y : β} :
    (r >>= f) s = (.ok y, rest) ↔ ∃ x s', r s = (.ok x, s') ∧ f x s' = (.ok y, rest) := by
  cases hr : r s with
  | mk out s' =>
    cases out with
    | ok x =>
      rw [bind_of_ok hr]
      simp
    | error e =>
      rw [bind_of_error hr]
      simp

instance : LawfulMonad Reader := by
  refine LawfulMonad.mk' Reader ?_ (fun _ _ => rfl) ?_
  · intro α r
    funext s
    show (match r s with
      | (.ok x, rest) => (.ok x, rest)
      | (.error e, rest) => (.error e, rest)) = r s
    rcases r s with ⟨_ | _, _⟩ <;> rfl
  · intro α β γ r f g
    funext s
    show (match (match r s with
        | (.ok x, rest) => f x rest
        | (.error e, rest) => (.error e, rest)) with
      | (.ok y, rest) => g y rest
      | (.error e, rest) => (.error e, rest)) = (match r s with
        | (.ok x, rest) => (match f x rest with
          | (.ok y, rest) => g y rest
          | (.error e, rest) => (.error e, rest))
        | (.error e, rest) => (.error e, rest))
    rcases r s with ⟨_ | _, _⟩ <;> rfl

/-- What is read to the end comes from the front of the stream. -/
theorem readFully_eq_ok {n : ℕ} {s rest bs : List Byte} (h : readFully n s = (.ok bs, rest)) :
    bs.length = n ∧ s = bs ++ rest := by
  unfold readFully at h
  split_ifs at h with hlen
  · simp at h
  rw [Prod.mk.injEq, Except.ok.injEq] at h
  obtain ⟨rfl, rfl⟩ := h
  exact ⟨by rw [List.length_take]; omega, (List.take_append_drop n s).symm⟩

theorem readByte_eq_ok {s rest : List Byte} {b : Byte} (h : readByte s = (.ok b, rest)) :
    s = b :: rest := by
  cases s with
  | nil => simp [readByte, throwException] at h
  | cons c s =>
    cases h
    rfl

/-- A check that was passed. -/
theorem guard_eq_ok {α : Type} {p : Prop} [Decidable p] {what : String} {r : Reader α}
    {s rest : List Byte} {y : α} :
    (if p then throwing what else r) s = (.ok y, rest) ↔ ¬ p ∧ r s = (.ok y, rest) := by
  split_ifs with h <;> simp [h, throwing]

/-- The same reader a number of times. -/
def readMany {α : Type} (read : Reader α) : ℕ → Reader (List α)
  | 0 => pure []
  | n + 1 => do
      let x ← read
      let xs ← readMany read n
      return x :: xs

theorem length_of_readMany {α : Type} {read : Reader α} {n : ℕ} {s rest : List Byte} {xs : List α}
    (h : readMany read n s = (.ok xs, rest)) : xs.length = n := by
  induction n generalizing s xs with
  | zero =>
    cases h
    rfl
  | succ n ih =>
    obtain ⟨x, s1, -, h⟩ := bind_eq_ok.mp h
    obtain ⟨ys, s2, hys, h⟩ := bind_eq_ok.mp h
    cases h
    rw [List.length_cons, ih hys]

/-- A vector of `len` entries: reserving a negative length throws. -/
def readVector {α : Type} (read : Reader α) (len : ℤ) : Reader (List α) :=
  if len < 0 then throwing "vector::reserve" else readMany read len.toNat

theorem length_of_readVector {α : Type} {read : Reader α} {len : ℤ} {s rest : List Byte}
    {xs : List α} (h : readVector read len s = (.ok xs, rest)) : (xs.length : ℤ) = len := by
  obtain ⟨hlen, h⟩ := guard_eq_ok.mp h
  rw [length_of_readMany h, Int.toNat_of_nonneg (not_lt.mp hlen)]

end Reader

open Reader

/-! ## Base values -/

namespace MiniData

/-- `readDataStream`. -/
def readDataStream : Reader MiniData := do
  let len ← readInt32BE
  if maxMiniDataLength < len then
    throwing "Read Error : MiniData Length larger than maximum allowed (256 MB) "
  else if len < 0 then throwing "Read Error : MiniData Length less than 0"
  else
    let bs ← readFully len.toNat
    return ⟨bs⟩

/-- `readHashFromStream`. -/
def readHashFromStream : Reader MiniData := do
  let len ← readInt32BE
  if maxHashLength < len then throwing "Read Error : HASH Length greater than 64! "
  else if len < 0 then throwing "Read Error : HASH Length less than 0! "
  else
    let bs ← readFully len.toNat
    return ⟨bs⟩

end MiniData

namespace MiniNumber

/-- `readDataStream`: the digits are cut to 64, the other limits are not applied. -/
def readDataStream : Reader MiniNumber := do
  let scale ← readByte
  let len ← readByte
  if ofInt8 len < 0 ∨ 32 < ofInt8 len then
    throwing "ERROR reading MiniNumber - input too large or negative "
  else
    let bytes ← readFully (ofInt8 len).toNat
    return applyMathContextDefault ⟨ofSigned bytes, ofInt8 scale⟩

end MiniNumber

/-! ## Values read back -/

/-- **The reader makes `x` of exactly these bytes**, whatever follows them. -/
def Reads {α : Type} (r : Reader α) (bytes : List Byte) (x : α) : Prop :=
  ∀ rest, r (bytes ++ rest) = (.ok x, rest)

namespace Reads

variable {α β : Type}

theorem pure (x : α) : Reads (Pure.pure x : Reader α) [] x := fun _ => rfl

theorem bind {r : Reader α} {f : α → Reader β} {bs cs : List Byte} {x : α} {y : β} (hr : Reads r bs x)
    (hf : Reads (f x) cs y) : Reads (r >>= f) (bs ++ cs) y := by
  intro rest
  rw [List.append_assoc]
  exact Reader.bind_eq_ok.mpr ⟨x, cs ++ rest, hr _, hf rest⟩

/-- What is read from the front of the stream goes to the next reader, with the rest. -/
theorem bind_apply {r : Reader α} {bs : List Byte} {x : α} (hr : Reads r bs x) (f : α → Reader β)
    (rest : List Byte) : (r >>= f) (bs ++ rest) = f x rest := by
  show (match r (bs ++ rest) with
    | (.ok y, left) => f y left
    | (.error e, left) => (.error e, left)) = _
  rw [hr rest]

theorem map {r : Reader α} {f : α → β} {bs : List Byte} {x : α} (hr : Reads r bs x) :
    Reads (f <$> r) bs (f x) := by
  intro rest
  exact Reader.bind_eq_ok.mpr ⟨x, rest, hr rest, rfl⟩

/-- A check that passes reads nothing. -/
theorem guard {p : Prop} [Decidable p] {what : String} {r : Reader α} {bs : List Byte} {x : α}
    (h : ¬ p) (hr : Reads r bs x) : Reads (if p then throwing what else r) bs x := by
  rw [if_neg h]
  exact hr

theorem lift {y : Result α} {x : α} (h : y = .ok x) : Reads (Reader.lift y) [] x := by
  intro rest
  rw [h]
  rfl

/-- **A check or a conversion in front**: it reads nothing. -/
theorem lift_bind {y : Result α} {f : α → Reader β} {bs : List Byte} {x : α} {z : β} (h : y = .ok x)
    (hf : Reads (f x) bs z) : Reads (Reader.lift y >>= f) bs z :=
  (lift h).bind hf

theorem readByte (b : Byte) : Reads Reader.readByte [b] b := fun _ => rfl

/-- **A byte in front.** -/
theorem readByte_bind (b : Byte) {f : Byte → Reader β} {bs : List Byte} {z : β} (hf : Reads (f b) bs z) :
    Reads (Reader.readByte >>= f) (b :: bs) z :=
  (readByte b).bind hf

theorem readFully (bs : List Byte) : Reads (Reader.readFully bs.length) bs bs := by
  intro rest
  rw [Reader.readFully, if_neg (by simp), List.take_left, List.drop_left]

theorem readMany {read : Reader α} {write : α → List Byte} {xs : List α}
    (h : ∀ x ∈ xs, Reads read (write x) x) :
    Reads (Reader.readMany read xs.length) (xs.map write).flatten xs := by
  induction xs with
  | nil => exact pure []
  | cons x xs ih =>
    have hrest := ih fun y hy => h y (by simp [hy])
    have hcons : Reads ((fun ys => x :: ys) <$> Reader.readMany read xs.length)
        (xs.map write).flatten (x :: xs) := hrest.map
    exact (h x (by simp)).bind (f := fun y => (fun ys => y :: ys) <$> Reader.readMany read xs.length)
      hcons

end Reads

end Minima
