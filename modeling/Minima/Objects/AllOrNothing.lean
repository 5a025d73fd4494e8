import Minima.Objects.RoundTrip

/-! # What a failed coin proof leaves behind

Every reader of the node throws when its part of the stream is malformed or cut short, but one:
`CoinProof::ReadFromStream` logs the exception and returns a null pointer, and the object around it
goes on reading where the proof broke off. Beside each reader stands the reader that lets the exception
through; the two are compared on every stream.

* **`AllOrNothing`** — the reader fails wherever a component fails, and what it returns is whole.
* **`Mirrors`** — where exactly that goes wrong, composed field by field.
* **`decode_allOrNothing_iff`** — an object is decoded all or nothing exactly where it swallows no
  failed coin proof. -/

namespace Minima

/-! ## A reader and the one that lets exceptions through -/

/-- The reader returns a value, and the value with the rest of the stream has the property. -/
def After {α : Type} (r : Reader α) (P : α → List Byte → Prop) (s : List Byte) : Prop :=
  ∃ x rest, r s = (.ok x, rest) ∧ P x rest

/-- **All or nothing**: where a component fails the reader throws too, and a value that it returns is
the one the components make, with nothing missing. -/
structure AllOrNothing {α : Type} (read strict : Reader α) (whole : α → Prop) (s : List Byte) : Prop where
  nothing : Throws (strict s).1 → Throws (read s).1
  all : ∀ x rest, read s = (.ok x, rest) → strict s = (.ok x, rest) ∧ whole x

/-- **Where a reader swallows a failure**: there the strict reader throws and this one does not.
Elsewhere they agree, or both throw. -/
structure Mirrors {α : Type} (read strict : Reader α) (swallows : List Byte → Prop) : Prop where
  agree : ∀ s, ¬ swallows s → read s = strict s ∨ (Throws (read s).1 ∧ Throws (strict s).1)
  differ : ∀ s, swallows s → Throws (strict s).1 ∧ ¬ Throws (read s).1

section Readers

variable {α β : Type} {r r' : Reader α} {w : List Byte → Prop}

theorem not_throws_ok (x : α) : ¬ Throws (.ok x : Result α) := by
  rintro ⟨what, h⟩
  cases h

/-- **A sequence throws** in its first half, or behind it. -/
theorem throws_bind_iff {f : α → Reader β} {s : List Byte} :
    Throws ((r >>= f) s).1 ↔ Throws (r s).1 ∨ After r (fun x rest => Throws (f x rest).1) s := by
  unfold After
  rcases hr : r s with ⟨e | x, rest⟩
  · rw [Reader.bind_of_error hr]
    simp [Throws]
  · rw [Reader.bind_of_ok hr]
    simp [Throws]

/-- A sequence whose halves agree. -/
theorem bind_congr_at {f f' : α → Reader β} {s : List Byte} (h : r s = r' s)
    (hf : ∀ x rest, r s = (.ok x, rest) → f x rest = f' x rest) : (r >>= f) s = (r' >>= f') s := by
  rcases hr : r s with ⟨e | x, rest⟩
  · rw [Reader.bind_of_error hr, Reader.bind_of_error (h.symm.trans hr)]
  · rw [Reader.bind_of_ok hr, Reader.bind_of_ok (h.symm.trans hr)]
    exact hf x rest hr

namespace Mirrors

theorem refl (r : Reader α) : Mirrors r r fun _ => False :=
  ⟨fun _ _ => Or.inl rfl, fun _ h => h.elim⟩

/-- The swallowed streams, in other words. -/
theorem congr {v : List Byte → Prop} (h : Mirrors r r' w) (hv : ∀ s, w s ↔ v s) : Mirrors r r' v :=
  ⟨fun s hs => h.agree s (mt (hv s).mp hs), fun s hs => h.differ s ((hv s).mpr hs)⟩

/-- **In sequence.** A failure is swallowed in the first half, unless the second half then throws, or in
the second half. -/
theorem bind {f f' : α → Reader β} {v : α → List Byte → Prop} (hr : Mirrors r r' w)
    (hf : ∀ x, Mirrors (f x) (f' x) (v x)) :
    Mirrors (r >>= f) (r' >>= f') fun s =>
      (w s ∧ ¬ After r (fun x rest => Throws (f x rest).1) s) ∨ After r v s := by
  constructor
  · intro s hs
    rw [not_or, not_and_not_right] at hs
    obtain ⟨hfirst, hsecond⟩ := hs
    by_cases hw : w s
    · -- swallowed, and thrown behind it
      right
      exact ⟨throws_bind_iff.mpr (Or.inr (hfirst hw)), throws_bind_iff.mpr (Or.inl (hr.differ s hw).1)⟩
    rcases hr.agree s hw with heq | ⟨hread, hstrict⟩
    · by_cases hthrow : After r (fun x rest => Throws (f x rest).1 ∧ Throws (f' x rest).1) s
      · obtain ⟨x, rest, hx, hread, hstrict⟩ := hthrow
        right
        constructor
        · exact throws_bind_iff.mpr (Or.inr ⟨x, rest, hx, hread⟩)
        · exact throws_bind_iff.mpr (Or.inr ⟨x, rest, heq ▸ hx, hstrict⟩)
      · left
        refine bind_congr_at heq fun x rest hx => ?_
        have hv : ¬ v x rest := fun hv => hsecond ⟨x, rest, hx, hv⟩
        rcases (hf x).agree rest hv with h | h
        · exact h
        · exact absurd ⟨x, rest, hx, h⟩ hthrow
    · right
      exact ⟨throws_bind_iff.mpr (Or.inl hread), throws_bind_iff.mpr (Or.inl hstrict)⟩
  · rintro s (⟨hw, hrest⟩ | ⟨x, rest, hx, hv⟩)
    · obtain ⟨hstrict, hread⟩ := hr.differ s hw
      refine ⟨throws_bind_iff.mpr (Or.inl hstrict), fun h => ?_⟩
      rcases throws_bind_iff.mp h with h | h
      · exact hread h
      · exact hrest h
    · obtain ⟨hstrict, hread⟩ := (hf x).differ rest hv
      have hok : ¬ Throws (r s).1 := by
        rw [hx]
        exact not_throws_ok x
      constructor
      · by_cases hw : w s
        · exact throws_bind_iff.mpr (Or.inl (hr.differ s hw).1)
        rcases hr.agree s hw with heq | ⟨hread, -⟩
        · exact throws_bind_iff.mpr (Or.inr ⟨x, rest, heq ▸ hx, hstrict⟩)
        · exact absurd hread hok
      · intro h
        rcases throws_bind_iff.mp h with h | ⟨y, rest', hy, h⟩
        · exact hok h
        · rw [hx] at hy
          cases hy
          exact hread h

/-- **Behind a reader that both share.** -/
theorem behind (r : Reader α) {f f' : α → Reader β} {v : α → List Byte → Prop}
    (hf : ∀ x, Mirrors (f x) (f' x) (v x)) : Mirrors (r >>= f) (r >>= f') (After r v) :=
  ((refl r).bind hf).congr fun s => by simp

/-- **In front of what both share.** -/
theorem before (hr : Mirrors r r' w) (f : α → Reader β) :
    Mirrors (r >>= f) (r' >>= f) fun s => w s ∧ ¬ After r (fun x rest => Throws (f x rest).1) s :=
  (hr.bind fun x => refl (f x)).congr fun s => by simp [After]

/-- One of the next readings is a failure that is swallowed. -/
def Sometime (r : Reader α) (w : List Byte → Prop) : ℕ → List Byte → Prop
  | 0, _ => False
  | n + 1, s => w s ∨ After r (fun _ rest => Sometime r w n rest) s

/-- A reader that never throws does not throw in a loop. -/
theorem not_throws_readMany (hr : ∀ s, ¬ Throws (r s).1) (n : ℕ) (s : List Byte) :
    ¬ Throws (Reader.readMany r n s).1 := by
  induction n generalizing s with
  | zero => exact not_throws_ok []
  | succ n ih =>
    intro h
    rcases throws_bind_iff.mp h with h | ⟨x, rest, -, h⟩
    · exact hr s h
    · rcases throws_bind_iff.mp h with h | ⟨xs, rest', -, h⟩
      · exact ih rest h
      · exact not_throws_ok _ h

/-- **In a loop** of a reader that never throws, every failure is swallowed. -/
theorem readMany (h : Mirrors r r' w) (hr : ∀ s, ¬ Throws (r s).1) (n : ℕ) :
    Mirrors (Reader.readMany r n) (Reader.readMany r' n) (Sometime r w n) := by
  induction n with
  | zero => exact refl _
  | succ n ih =>
    refine (h.bind fun x => ih.before fun xs => pure (x :: xs)).congr fun s => ?_
    have hquiet : ∀ x s, ¬ Throws ((Reader.readMany r n >>= fun xs => pure (x :: xs)) s).1 := by
      intro x s hthrow
      rcases throws_bind_iff.mp hthrow with h | ⟨xs, rest, -, h⟩
      · exact not_throws_readMany hr n s h
      · exact not_throws_ok _ h
    have hpure : ∀ x s, ¬ After (Reader.readMany r n)
        (fun xs rest => Throws ((pure (x :: xs) : Reader (List α)) rest).1) s := by
      rintro x s ⟨xs, rest, -, h⟩
      exact not_throws_ok _ h
    have hfirst : ¬ After r (fun x rest =>
        Throws ((Reader.readMany r n >>= fun xs => pure (x :: xs)) rest).1) s := by
      rintro ⟨x, rest, -, h⟩
      exact hquiet x rest h
    simp only [hfirst, hpure, not_false_eq_true, and_true, Sometime]

/-- **In a vector.** -/
theorem readVector (h : Mirrors r r' w) (hr : ∀ s, ¬ Throws (r s).1) (len : ℤ) :
    Mirrors (Reader.readVector r len) (Reader.readVector r' len) (Sometime r w len.toNat) := by
  unfold Reader.readVector
  split_ifs with hlen
  · rw [Int.toNat_of_nonpos hlen.le]
    exact refl _
  · exact h.readMany hr len.toNat

/-- **All or nothing exactly where nothing is swallowed.** -/
theorem allOrNothing_iff {whole : α → Prop} (h : Mirrors r r' w)
    (hwhole : ∀ s x rest, r' s = (.ok x, rest) → whole x) (s : List Byte) :
    AllOrNothing r r' whole s ↔ ¬ w s := by
  constructor
  · rintro ⟨hnothing, -⟩ hw
    exact (h.differ s hw).2 (hnothing (h.differ s hw).1)
  · intro hw
    rcases h.agree s hw with heq | ⟨hread, hstrict⟩
    · exact ⟨fun hthrow => heq ▸ hthrow, fun x rest hx => ⟨heq ▸ hx, hwhole s x rest (heq ▸ hx)⟩⟩
    · refine ⟨fun _ => hread, fun x rest hx => ?_⟩
      rw [hx] at hread
      exact absurd hread (not_throws_ok x)

end Mirrors

end Readers

/-! ## Coin proofs -/

namespace CoinProof

/-- The coin proof that starts here is malformed or cut short. -/
def Broken (s : List Byte) : Prop := Throws (readDataStream s).1

theorem not_throws_readFromStream (s : List Byte) : ¬ Throws (readFromStream s).1 := by
  unfold readFromStream
  split
  · exact not_throws_ok _
  · exact not_throws_ok _
  · rintro ⟨what, h⟩
    cases h

theorem mirrors : Mirrors readFromStream (some <$> readDataStream) Broken := by
  have hstrict : ∀ s, (some <$> readDataStream : Reader (Option CoinProof)) s =
      match readDataStream s with
      | (.ok cp, rest) => (.ok (some cp), rest)
      | (.error e, rest) => (.error e, rest) := by
    intro s
    rw [map_eq_pure_bind]
    rcases hr : readDataStream s with ⟨e | cp, rest⟩
    · simp only [bind, hr]
    · simp only [bind, hr]
      rfl
  constructor
  · intro s hs
    left
    rw [hstrict, readFromStream]
    unfold Broken at hs
    rcases hr : readDataStream s with ⟨(what | what) | cp, rest⟩
    · rw [hr] at hs
      exact absurd ⟨what, rfl⟩ hs
    · rfl
    · rfl
  · rintro s ⟨what, hs⟩
    refine ⟨⟨what, ?_⟩, not_throws_readFromStream s⟩
    rw [hstrict]
    rcases hr : readDataStream s with ⟨e | cp, rest⟩
    · rw [hr] at hs
      cases hs
      rfl
    · rw [hr] at hs
      cases hs

end CoinProof

namespace TxBlock

theorem readSpentCoin_eq (s : List Byte) : readSpentCoin s = match CoinProof.readDataStream s with
    | (.ok cp, rest) => (.ok cp, rest)
    | (.error (.exception _), rest) => (undefinedBehaviour "null CoinProof", rest)
    | (.error (.undefined what), rest) => (undefinedBehaviour what, rest) := by
  rcases hr : CoinProof.readDataStream s with ⟨(what | what) | cp, rest⟩ <;>
    simp only [readSpentCoin, bind, CoinProof.readFromStream, hr] <;> rfl

theorem not_throws_readSpentCoin (s : List Byte) : ¬ Throws (readSpentCoin s).1 := by
  rw [readSpentCoin_eq]
  rintro ⟨what, h⟩
  rcases hr : CoinProof.readDataStream s with ⟨(_ | _) | cp, rest⟩ <;> rw [hr] at h <;> cases h

theorem mirrorsSpentCoin : Mirrors readSpentCoin CoinProof.readDataStream CoinProof.Broken := by
  constructor
  · intro s hs
    left
    rw [readSpentCoin_eq]
    unfold CoinProof.Broken at hs
    rcases hr : CoinProof.readDataStream s with ⟨(what | what) | cp, rest⟩
    · rw [hr] at hs
      exact absurd ⟨what, rfl⟩ hs
    · rfl
    · rfl
  · exact fun s hs => ⟨hs, not_throws_readSpentCoin s⟩

end TxBlock

/-! ## The objects -/

namespace Witness

variable (C : Crypto)

/-- The script proofs of `readDataStream`, behind everything else. -/
def readScripts (signatures : List Signature) (coinProofs : List (Option CoinProof)) : Reader Witness := do
  let plen ← MiniNumber.getAsInt <$> MiniNumber.readDataStream
  let scriptProofs ← Reader.readVector (ScriptProof.readDataStream C) plen
  return ⟨signatures, coinProofs, scriptProofs⟩

/-- The format of `readDataStream`, where a failed coin proof fails the witness. -/
def readStrictly : Reader Witness := do
  let slen ← MiniNumber.getAsInt <$> MiniNumber.readDataStream
  let signatureProofs ← Reader.readVector Signature.readDataStream slen
  let clen ← MiniNumber.getAsInt <$> MiniNumber.readDataStream
  let coinProofs ← Reader.readVector (some <$> CoinProof.readDataStream) clen
  readScripts C signatureProofs coinProofs

/-- **A failed coin proof is swallowed**: one of the coin proofs is broken, and the scripts that are read
behind them are not. -/
def Swallows : List Byte → Prop :=
  After (MiniNumber.getAsInt <$> MiniNumber.readDataStream) fun slen =>
  After (Reader.readVector Signature.readDataStream slen) fun signatures =>
  After (MiniNumber.getAsInt <$> MiniNumber.readDataStream) fun clen s =>
    Mirrors.Sometime CoinProof.readFromStream CoinProof.Broken clen.toNat s ∧
    ¬ After (Reader.readVector CoinProof.readFromStream clen)
      (fun coinProofs rest => Throws (readScripts C signatures coinProofs rest).1) s

/-- Every coin proof is present. -/
def Whole (w : Witness) : Prop := ∀ cp ∈ w.coinProofs, cp.isSome

theorem mirrors : Mirrors (readDataStream C) (readStrictly C) (Swallows C) :=
  Mirrors.behind _ fun _ => Mirrors.behind _ fun signatures => Mirrors.behind _ fun clen =>
    (CoinProof.mirrors.readVector CoinProof.not_throws_readFromStream clen).before
      (readScripts C signatures)

theorem yieldsWhole : Yields (readStrictly C) Whole := by
  refine (Yields.any _).bind fun _ _ => (Yields.any _).bind fun signatures _ => ?_
  refine (Yields.any _).bind fun clen _ => ?_
  have hproof : Yields (some <$> CoinProof.readDataStream) fun cp => cp.isSome :=
    (Yields.any _).map fun cp _ => rfl
  refine (hproof.readVector clen).bind fun coinProofs hcoinProofs => (Yields.any _).bind fun plen _ => ?_
  exact (Yields.any _).map fun scripts _ => hcoinProofs.2

end Witness

namespace TxBody

variable (C : Crypto)

/-- What `readDataStream` reads behind the burn witness. -/
def readIDs (prng txnDifficulty : MiniData) (transaction : Transaction) (witness : Witness)
    (burnTransaction : Transaction) (burnWitness : Witness) : Reader TxBody := do
  let len ← MiniNumber.getAsInt <$> MiniNumber.readDataStream
  let txPowIDList ← Reader.readVector MiniData.readHashFromStream len
  return ⟨prng, txnDifficulty, transaction, witness, burnTransaction, burnWitness, txPowIDList⟩

/-- What `readDataStream` reads behind the witness. -/
def readBurn (prng txnDifficulty : MiniData) (transaction : Transaction) (witness : Witness) :
    Reader TxBody := do
  let burnTransaction ← Transaction.readDataStream
  let burnWitness ← Witness.readDataStream C
  readIDs prng txnDifficulty transaction witness burnTransaction burnWitness

/-- The format of `readDataStream`, where a failed coin proof fails the body. -/
def readStrictly : Reader TxBody := do
  let prng ← MiniData.readHashFromStream
  let txnDifficulty ← MiniData.readDataStream
  let transaction ← Transaction.readDataStream
  let witness ← Witness.readStrictly C
  let burnTransaction ← Transaction.readDataStream
  let burnWitness ← Witness.readStrictly C
  readIDs prng txnDifficulty transaction witness burnTransaction burnWitness

/-- **A failed coin proof is swallowed**, in the witness or in the burn witness, and nothing behind it
throws. -/
def Swallows : List Byte → Prop :=
  After MiniData.readHashFromStream fun prng =>
  After MiniData.readDataStream fun txnDifficulty =>
  After Transaction.readDataStream fun transaction s =>
    (Witness.Swallows C s ∧ ¬ After (Witness.readDataStream C)
      (fun witness rest => Throws (readBurn C prng txnDifficulty transaction witness rest).1) s) ∨
    After (Witness.readDataStream C) (fun witness =>
      After Transaction.readDataStream fun burnTransaction rest => Witness.Swallows C rest ∧
        ¬ After (Witness.readDataStream C) (fun burnWitness rest' =>
          Throws (readIDs prng txnDifficulty transaction witness burnTransaction burnWitness rest').1)
          rest) s

/-- Every coin proof is present. -/
def Whole (b : TxBody) : Prop := b.witness.Whole ∧ b.burnWitness.Whole

theorem mirrors : Mirrors (readDataStream C) (readStrictly C) (Swallows C) :=
  Mirrors.behind _ fun prng => Mirrors.behind _ fun difficulty => Mirrors.behind _ fun txn =>
    (Witness.mirrors C).bind fun wit => Mirrors.behind _ fun burn =>
      (Witness.mirrors C).before (readIDs prng difficulty txn wit burn)

theorem yieldsWhole : Yields (readStrictly C) Whole := by
  refine (Yields.any _).bind fun prng _ => (Yields.any _).bind fun difficulty _ => ?_
  refine (Yields.any _).bind fun txn _ => (Witness.yieldsWhole C).bind fun wit hwit => ?_
  refine (Yields.any _).bind fun burn _ => (Witness.yieldsWhole C).bind fun burnwit hburnwit => ?_
  exact (Yields.any _).bind fun len _ => (Yields.any _).map fun ids _ => ⟨hwit, hburnwit⟩

end TxBody

namespace TxPoW

variable (C : Crypto) (weightText : ℕ → Text)

/-- The body of `readStrictly`, behind a byte that says whether there is one. -/
def readBodyStrictly : Reader (Option TxBody) := do
  let hasBody ← Reader.readByte
  if hasBody ≠ 0 then some <$> TxBody.readStrictly C else pure none

/-- The format of `readDataStream`, where a failed coin proof fails the block. -/
def readStrictly : Reader TxPoW := do
  let header ← TxHeader.readDataStream
  let body ← readBodyStrictly C
  Reader.lift (calculateTXPOWID C weightText header body)

/-- **A failed coin proof is swallowed** in the body. -/
def Swallows : List Byte → Prop :=
  After TxHeader.readDataStream fun _ =>
  After Reader.readByte fun hasBody s => hasBody ≠ 0 ∧ TxBody.Swallows C s

/-- Every coin proof is present. -/
def Whole (t : TxPoW) : Prop := ∀ b ∈ t.body, b.Whole

/-- An encoder that throws is caught. -/
theorem not_throws_calculateTXPOWID (header : TxHeader) (body : Option TxBody) :
    ¬ Throws (calculateTXPOWID C weightText header body) := by
  rintro ⟨what, h⟩
  unfold calculateTXPOWID at h
  rcases hencode : encode header body with (_ | _) | bytes <;> simp only [hencode] at h <;> cases h

theorem mirrorsBody : Mirrors (readBody C) (readBodyStrictly C)
    (After Reader.readByte fun hasBody s => hasBody ≠ 0 ∧ TxBody.Swallows C s) := by
  refine Mirrors.behind _ fun hasBody => ?_
  split_ifs with hbody
  · refine ((TxBody.mirrors C).before fun b => pure (some b)).congr fun s => ?_
    have hquiet : ¬ After (TxBody.readDataStream C)
        (fun b rest => Throws ((pure (some b) : Reader (Option TxBody)) rest).1) s := by
      rintro ⟨b, rest, -, h⟩
      exact not_throws_ok _ h
    rw [and_iff_left hquiet]
    exact ⟨fun h => ⟨hbody, h⟩, fun h => h.2⟩
  · exact (Mirrors.refl _).congr fun s => by simp [hbody]

theorem mirrors : Mirrors (readDataStream C weightText) (readStrictly C weightText) (Swallows C) := by
  rw [readDataStream_eq]
  refine Mirrors.behind _ fun header => ((mirrorsBody C).before _).congr fun s => ?_
  have hquiet : ¬ After (readBody C)
      (fun body rest => Throws (Reader.lift (calculateTXPOWID C weightText header body) rest).1) s := by
    rintro ⟨body, rest, -, h⟩
    exact not_throws_calculateTXPOWID C weightText header body h
  simp only [hquiet, not_false_eq_true, and_true]

theorem yieldsWhole : Yields (readStrictly C weightText) Whole := by
  refine (Yields.any _).bind fun header _ => ?_
  have hbody : Yields (readBodyStrictly C) fun body => ∀ b ∈ body, TxBody.Whole b := by
    refine (Yields.any _).bind fun hasBody _ => ?_
    split_ifs
    · exact (TxBody.yieldsWhole C).map fun body hbody => by simpa using hbody
    · exact Yields.pure (by simp)
  refine hbody.bind fun body hbody => Yields.lift fun t ht => ?_
  unfold Whole
  rw [(calculateTXPOWID_eq_ok ht).2.1]
  exact hbody

end TxPoW

namespace TxBlock

variable (C : Crypto) (weightText : ℕ → Text)

/-- What `readDataStream` reads behind the spent coins. -/
def readNewCoins (txpow : TxPoW) (previousPeaks : List MMREntry) (spentCoins : List CoinProof) :
    Reader TxBlock := do
  let coinsLength ← MiniNumber.getAsInt <$> MiniNumber.readDataStream
  let newCoins ← Reader.readVector Coin.readDataStream coinsLength
  return ⟨txpow, previousPeaks, spentCoins, newCoins⟩

/-- What `readDataStream` reads behind the `TxPoW`. -/
def readCoins (txpow : TxPoW) : Reader TxBlock := do
  let peaksLength ← MiniNumber.getAsInt <$> MiniNumber.readDataStream
  let previousPeaks ← Reader.readVector MMREntry.readDataStream peaksLength
  let spentLength ← MiniNumber.getAsInt <$> MiniNumber.readDataStream
  let spentCoins ← Reader.readVector readSpentCoin spentLength
  readNewCoins txpow previousPeaks spentCoins

/-- The format of `readDataStream`, where a failed coin proof fails the block. -/
def readStrictly : Reader TxBlock := do
  let txpow ← TxPoW.readStrictly C weightText
  let peaksLength ← MiniNumber.getAsInt <$> MiniNumber.readDataStream
  let previousPeaks ← Reader.readVector MMREntry.readDataStream peaksLength
  let spentLength ← MiniNumber.getAsInt <$> MiniNumber.readDataStream
  let spentCoins ← Reader.readVector CoinProof.readDataStream spentLength
  readNewCoins txpow previousPeaks spentCoins

/-- **A failed coin proof is swallowed**, in the `TxPoW` or among the spent coins, and nothing behind it
throws. -/
def Swallows (s : List Byte) : Prop :=
  (TxPoW.Swallows C s ∧
    ¬ After (TxPoW.readDataStream C weightText) (fun txpow rest => Throws (readCoins txpow rest).1) s) ∨
  After (TxPoW.readDataStream C weightText) (fun txpow =>
    After (MiniNumber.getAsInt <$> MiniNumber.readDataStream) fun peaksLength =>
    After (Reader.readVector MMREntry.readDataStream peaksLength) fun previousPeaks =>
    After (MiniNumber.getAsInt <$> MiniNumber.readDataStream) fun spentLength rest =>
      Mirrors.Sometime readSpentCoin CoinProof.Broken spentLength.toNat rest ∧
      ¬ After (Reader.readVector readSpentCoin spentLength)
        (fun spentCoins rest' => Throws (readNewCoins txpow previousPeaks spentCoins rest').1) rest) s

theorem mirrors : Mirrors (readDataStream C weightText) (readStrictly C weightText)
    (Swallows C weightText) :=
  (TxPoW.mirrors C weightText).bind fun txpow => Mirrors.behind _ fun _ => Mirrors.behind _ fun peaks =>
    Mirrors.behind _ fun len =>
      (mirrorsSpentCoin.readVector not_throws_readSpentCoin len).before (readNewCoins txpow peaks)

theorem yieldsWhole : Yields (readStrictly C weightText) fun b => b.txpow.Whole := by
  refine (TxPoW.yieldsWhole C weightText).bind fun txpow htxpow => (Yields.any _).bind fun _ _ => ?_
  refine (Yields.any _).bind fun _ _ => (Yields.any _).bind fun _ _ => (Yields.any _).bind fun _ _ => ?_
  exact (Yields.any _).bind fun _ _ => (Yields.any _).map fun coins _ => htxpow

end TxBlock

/-- **An object is decoded all or nothing exactly where it swallows no failed coin proof.** -/
theorem decode_allOrNothing_iff (C : Crypto) (weightText : ℕ → Text) (s : List Byte) :
    (AllOrNothing (Witness.readDataStream C) (Witness.readStrictly C) Witness.Whole s ↔
      ¬ Witness.Swallows C s) ∧
    (AllOrNothing (TxBody.readDataStream C) (TxBody.readStrictly C) TxBody.Whole s ↔
      ¬ TxBody.Swallows C s) ∧
    (AllOrNothing (TxPoW.readDataStream C weightText) (TxPoW.readStrictly C weightText) TxPoW.Whole s ↔
      ¬ TxPoW.Swallows C s) ∧
    (AllOrNothing (TxBlock.readDataStream C weightText) (TxBlock.readStrictly C weightText)
      (fun b => b.txpow.Whole) s ↔ ¬ TxBlock.Swallows C weightText s) := by
  refine ⟨?_, ?_, ?_, ?_⟩
  · exact (Witness.mirrors C).allOrNothing_iff (fun _ _ _ h => Witness.yieldsWhole C h) s
  · exact (TxBody.mirrors C).allOrNothing_iff (fun _ _ _ h => TxBody.yieldsWhole C h) s
  · exact (TxPoW.mirrors C weightText).allOrNothing_iff
      (fun _ _ _ h => TxPoW.yieldsWhole C weightText h) s
  · exact (TxBlock.mirrors C weightText).allOrNothing_iff
      (fun _ _ _ h => TxBlock.yieldsWhole C weightText h) s

/-- A witness whose only coin proof announces a hash of 65 bytes: it is decoded, and the proof is
missing. -/
theorem decode_not_allOrNothing :
    ¬ ∀ (C : Crypto) (s : List Byte),
      AllOrNothing (Witness.readDataStream C) (Witness.readStrictly C) Witness.Whole s := by
  intro h
  have hread : Witness.readDataStream .plain [0, 1, 0, 0, 1, 1, 0, 0, 0, 65, 0, 1, 0] =
      (.ok ⟨[], [none], []⟩, []) := by decide +kernel
  have hwhole := ((h .plain _).all _ _ hread).2
  exact absurd (hwhole none (by simp)) (by simp)

end Minima
