import Minima.Objects.Codec
import Minima.Objects.TxBlock

/-! # The round trip of the chain objects, and the ids that are hashes of them

A `TxPoW` and a `TxBlock` contain all the other objects. The ids of transactions, bodies and blocks
are hashes of encodings, and the empty byte string where the encoder throws.

* **`RoundTrips`** — an object is encoded, the encoding decodes to the object, and the hash of the
  object is the hash of the encoding.
* **`roundTrips_iff_held`** — exactly the objects whose numbers are inside the limits do. -/

namespace Minima

/-! ## `TxPoW` -/

namespace TxPoW

variable {C : Crypto} {weightText : ℕ → Text}

/-- The body of `readDataStream`, behind a byte that says whether there is one. -/
def readBody (C : Crypto) : Reader (Option TxBody) := do
  let hasBody ← Reader.readByte
  if hasBody ≠ 0 then some <$> TxBody.readDataStream C else pure none

theorem readDataStream_eq : readDataStream C weightText = (do
    let header ← TxHeader.readDataStream
    let body ← readBody C
    Reader.lift (calculateTXPOWID C weightText header body)) := by
  unfold readDataStream readBody
  refine congrArg _ (funext fun header => ?_)
  rw [bind_assoc]
  refine congrArg _ (funext fun hasBody => ?_)
  split_ifs <;> rfl

/-- What is derived from header and body can be derived when these can be encoded. -/
theorem calculateTXPOWID_of_encode (C : Crypto) (weightText : ℕ → Text) {header : TxHeader}
    {body : Option TxBody} {bs : List Byte} (h : encode header body = .ok bs) :
    ∃ t, calculateTXPOWID C weightText header body = .ok t ∧ t.header = header ∧ t.body = body := by
  unfold calculateTXPOWID
  simp only [h]
  exact ⟨_, rfl, rfl, rfl⟩

theorem calculateTXPOWID_eq_ok {header : TxHeader} {body : Option TxBody} {t : TxPoW}
    (h : calculateTXPOWID C weightText header body = .ok t) :
    t.header = header ∧ t.body = body ∧ t.txPoWID = C.hashObject header.writeDataStream := by
  unfold calculateTXPOWID at h
  cases hencode : encode header body with
  | ok bytes =>
    simp only [hencode] at h
    cases h
    exact ⟨rfl, rfl, rfl⟩
  | error e =>
    cases e with
    | exception what =>
      simp only [hencode] at h
      cases h
      exact ⟨rfl, rfl, rfl⟩
    | undefined what =>
      simp only [hencode] at h
      cases h

/-- A `TxPoW` as the reader makes it: with everything that is derived from header and body. -/
structure Wire (C : Crypto) (weightText : ℕ → Text) (t : TxPoW) : Prop where
  header : t.header.Wire
  body : ∀ b ∈ t.body, b.Wire C
  derived : calculateTXPOWID C weightText t.header t.body = .ok t

/-- The body, when there is one, is held. -/
def Held (t : TxPoW) : Prop := ∀ b ∈ t.body, b.Held

theorem yieldsBody : Yields (readBody C) fun body => ∀ b ∈ body, b.Wire C := by
  refine (Yields.any _).bind fun hasBody _ => ?_
  split_ifs
  · exact (TxBody.yields C).map fun b hb => by simpa using hb
  · exact Yields.pure (by simp)

theorem yields : Yields (readDataStream C weightText) (Wire C weightText) := by
  rw [readDataStream_eq]
  refine TxHeader.yields.bind fun header hheader => yieldsBody.bind fun body hbody => ?_
  refine Yields.lift fun t ht => ?_
  obtain ⟨h1, h2, -⟩ := calculateTXPOWID_eq_ok ht
  subst h1 h2
  exact ⟨hheader, hbody, ht⟩

/-- **A `TxPoW` arrives with the body that arrives**, and what is derived from it. -/
theorem sends {t t' : TxPoW} (h : t.header.Wire) {body : Option TxBody} {bs : List Byte}
    (hwrite : writeBody t.body = .ok bs) (hread : Reads (readBody C) bs body)
    (hderived : calculateTXPOWID C weightText t.header body = .ok t') :
    Transmits writeDataStream (readDataStream C weightText) t t' := by
  obtain ⟨hs, hhs, hreadHeader⟩ := TxHeader.transmits h
  refine ⟨hs ++ bs, ?_, ?_⟩
  · rw [writeDataStream, encode, hhs, hwrite]
    rfl
  · rw [readDataStream_eq]
    have hlast := hread.bind (f := fun body => Reader.lift (calculateTXPOWID C weightText t.header body))
      (Reads.lift hderived)
    rw [List.append_nil] at hlast
    exact hreadHeader.bind hlast

/-- A body that arrives does so behind its presence byte. -/
theorem transmitsBody {b b' : TxBody} (h : Transmits TxBody.writeDataStream (TxBody.readDataStream C) b b') :
    ∃ bytes, writeBody (some b) = .ok bytes ∧ Reads (readBody C) bytes (some b') := by
  obtain ⟨bs, hbs, hread⟩ := h
  refine ⟨1 :: bs, ?_, Reads.readByte_bind 1 hread.map⟩
  rw [writeBody, hbs]
  rfl

theorem transmitsNoBody : Reads (readBody C) [0] none := (Reads.readByte 0).bind (Reads.pure none)

theorem transmits {t : TxPoW} (h : t.Wire C weightText) (hheld : t.Held) :
    Transmits writeDataStream (readDataStream C weightText) t t := by
  cases hbody : t.body with
  | none => exact sends h.header (by rw [hbody]; rfl) transmitsNoBody (hbody ▸ h.derived)
  | some b =>
    obtain ⟨bs, hbs, hread⟩ := transmitsBody (TxBody.transmits (h.body b hbody) (hheld b hbody))
    exact sends h.header (hbody ▸ hbs) hread (hbody ▸ h.derived)

theorem settles {t : TxPoW} (h : t.Wire C weightText) {bs : List Byte}
    (hwrite : t.writeDataStream = .ok bs) :
    ∃ t', Transmits writeDataStream (readDataStream C weightText) t t' ∧ t'.Held := by
  cases hbody : t.body with
  | none =>
    exact ⟨t, sends h.header (by rw [hbody]; rfl) transmitsNoBody (hbody ▸ h.derived), by
      simp [Held, hbody]⟩
  | some b =>
    rw [writeDataStream, encode, hbody] at hwrite
    obtain ⟨hs, hhs, hwrite⟩ := Result.bind_eq_ok.mp hwrite
    obtain ⟨_, hb, -⟩ := Result.bind_eq_ok.mp hwrite
    obtain ⟨cs, hcs, -⟩ := Result.bind_eq_ok.mp hb
    obtain ⟨b', hb', hheld⟩ := TxBody.settles (h.body b hbody) hcs
    obtain ⟨ds, hds, hread⟩ := transmitsBody hb'
    -- the body that arrives can be encoded, so that its size can be derived
    obtain ⟨es, hes, -⟩ := transmitsBody (TxBody.transmits (hb'.yields (TxBody.yields C)) hheld)
    have hencode : encode t.header (some b') = .ok (hs ++ es) := by
      rw [encode, hhs, hes]
      rfl
    obtain ⟨t', ht', -, hbody'⟩ := calculateTXPOWID_of_encode C weightText hencode
    refine ⟨t', sends h.header (hbody ▸ hds) hread ht', ?_⟩
    simpa [Held, hbody'] using hheld

theorem transmits_iff {t : TxPoW} (h : t.Wire C weightText) :
    Transmits writeDataStream (readDataStream C weightText) t t ↔ t.Held :=
  Transmits.self_iff (transmits h) fun _ => settles h

end TxPoW

/-! ## `TxBlock` -/

namespace TxBlock

variable {C : Crypto} {weightText : ℕ → Text}

/-- A `TxBlock` as the reader makes it. -/
structure Wire (C : Crypto) (weightText : ℕ → Text) (b : TxBlock) : Prop where
  txpow : b.txpow.Wire C weightText
  peaksLength : b.previousPeaks.length < 2 ^ 31
  spentLength : b.spentCoins.length < 2 ^ 31
  coinsLength : b.newCoins.length < 2 ^ 31
  peaks : ∀ x ∈ b.previousPeaks, x.Wire
  spent : ∀ p ∈ b.spentCoins, p.Wire
  coins : ∀ c ∈ b.newCoins, c.Wire

/-- The `TxPoW` and the coins are held. -/
structure Held (b : TxBlock) : Prop where
  txpow : b.txpow.Held
  spent : ∀ p ∈ b.spentCoins, p.Held
  coins : ∀ c ∈ b.newCoins, c.Held

theorem yieldsSpentCoin : Yields readSpentCoin CoinProof.Wire := by
  refine CoinProof.yieldsFromStream.bind fun p hp => ?_
  cases p with
  | none => exact Yields.lift fun cp hcp => absurd hcp (by simp)
  | some cp => exact Yields.pure (hp cp rfl)

theorem yields : Yields (readDataStream C weightText) (Wire C weightText) := by
  refine TxPoW.yields.bind fun txpow htxpow => Yields.readLength.bind fun plen hplen => ?_
  refine (MMREntry.yields.readVector plen).bind fun peaks hpeaks => ?_
  refine Yields.readLength.bind fun slen hslen => ?_
  refine (yieldsSpentCoin.readVector slen).bind fun spent hspent => ?_
  refine Yields.readLength.bind fun clen hclen => ?_
  refine (Coin.yields.readVector clen).map fun coins hcoins => ?_
  have hpeaksLength : peaks.length < 2 ^ 31 := by omega
  have hspentLength : spent.length < 2 ^ 31 := by omega
  have hcoinsLength : coins.length < 2 ^ 31 := by omega
  exact ⟨htxpow, hpeaksLength, hspentLength, hcoinsLength, hpeaks.2, hspent.2, hcoins.2⟩

/-- A spent coin travels like a coin proof behind its pointer. -/
theorem transmitsSpentCoin {p p' : CoinProof}
    (h : Transmits CoinProof.writeDataStream CoinProof.readDataStream p p') :
    Transmits CoinProof.writeDataStream readSpentCoin p p' := by
  obtain ⟨bs, hbs, hread⟩ := CoinProof.transmitsFromStream h
  have hlast : Reads readSpentCoin (bs ++ []) p' := by
    unfold readSpentCoin
    exact hread.bind (Reads.pure p')
  rw [List.append_nil] at hlast
  exact ⟨bs, hbs, hlast⟩

/-- **A `TxBlock` arrives with the `TxPoW` and the coins that arrive.** -/
theorem sends {b : TxBlock} (h : b.Wire C weightText) {txpow : TxPoW} {spent : List CoinProof}
    {coins : List Coin}
    (htxpow : Transmits TxPoW.writeDataStream (TxPoW.readDataStream C weightText) b.txpow txpow)
    (hspent : List.Forall₂ (Transmits CoinProof.writeDataStream CoinProof.readDataStream)
      b.spentCoins spent)
    (hcoins : List.Forall₂ (Transmits Coin.writeDataStream Coin.readDataStream) b.newCoins coins) :
    Transmits writeDataStream (readDataStream C weightText) b ⟨txpow, b.previousPeaks, spent, coins⟩ := by
  obtain ⟨as, has, hreadTxpow⟩ := htxpow
  obtain ⟨bs, hbs, hreadPeaks⟩ := Transmits.vector (Transmits.forall₂_self.mpr fun x hx =>
    MMREntry.transmits (h.peaks x hx))
  obtain ⟨cs, hcs, hreadSpent⟩ := Transmits.vector (hspent.imp fun _ _ => transmitsSpentCoin)
  obtain ⟨ds, hds, hreadCoins⟩ := Transmits.vector hcoins
  refine ⟨as ++ ((MiniNumber.ofInt b.previousPeaks.length).writeDataStream ++ (bs ++
    ((MiniNumber.ofInt b.spentCoins.length).writeDataStream ++ (cs ++
      ((MiniNumber.ofInt b.newCoins.length).writeDataStream ++ ds))))), ?_, ?_⟩
  · rw [writeDataStream, has, Coin.writeAll, Coin.writeAll, Coin.writeAll, hbs, hcs, hds]
    simp only [← List.append_assoc]
    rfl
  · refine hreadTxpow.bind ((MiniNumber.reads_count h.peaksLength).bind (hreadPeaks.bind ?_))
    refine (MiniNumber.reads_count h.spentLength).bind (hreadSpent.bind ?_)
    exact (MiniNumber.reads_count h.coinsLength).bind hreadCoins.then_pure

theorem transmits {b : TxBlock} (h : b.Wire C weightText) (hheld : b.Held) :
    Transmits writeDataStream (readDataStream C weightText) b b :=
  sends h (TxPoW.transmits h.txpow hheld.txpow)
    (Transmits.forall₂_self.mpr fun p hp => CoinProof.transmits (h.spent p hp) (hheld.spent p hp))
    (Transmits.forall₂_self.mpr fun c hc => Coin.transmits (h.coins c hc) (hheld.coins c hc))

theorem settles {b : TxBlock} (h : b.Wire C weightText) {bs : List Byte}
    (hwrite : b.writeDataStream = .ok bs) :
    ∃ b', Transmits writeDataStream (readDataStream C weightText) b b' ∧ b'.Held := by
  simp only [writeDataStream, Result.bind_eq_ok] at hwrite
  obtain ⟨as, has, _, -, cs, hcs, ds, hds, -⟩ := hwrite
  obtain ⟨txpow, htxpow, h1⟩ := TxPoW.settles h.txpow has
  obtain ⟨spent, hspent, h2⟩ := Transmits.settles_vector (fun p hp _ => CoinProof.settles (h.spent p hp)) hcs
  obtain ⟨coins, hcoins, h3⟩ := Transmits.settles_vector (fun c hc _ => Coin.settles (h.coins c hc)) hds
  exact ⟨_, sends h htxpow hspent hcoins, h1, h2, h3⟩

theorem transmits_iff {b : TxBlock} (h : b.Wire C weightText) :
    Transmits writeDataStream (readDataStream C weightText) b b ↔ b.Held :=
  Transmits.self_iff (transmits h) fun _ => settles h

end TxBlock

/-! ## Round trips and hashes -/

/-- **An object is encoded, its encoding decodes to the object**, leaving whatever follows, **and the
hash of the object is the hash of the encoding.** -/
def RoundTrips {α : Type} (C : Crypto) (write : α → Result (List Byte)) (read : Reader α) (x : α) :
    Prop :=
  ∃ bytes, write x = .ok bytes ∧ Reads read bytes x ∧ C.hashObject (write x) = ⟨C.hashData bytes⟩

theorem Crypto.hashObject_ok (C : Crypto) (bs : List Byte) : C.hashObject (.ok bs) = ⟨C.hashData bs⟩ := by
  have h := C.hashAllObjects_ok [bs]
  rwa [List.flatten_singleton] at h

theorem roundTrips_iff_transmits {α : Type} {C : Crypto} {write : α → Result (List Byte)}
    {read : Reader α} {x : α} : RoundTrips C write read x ↔ Transmits write read x x := by
  constructor
  · rintro ⟨bs, hbs, hread, -⟩
    exact ⟨bs, hbs, hread⟩
  · rintro ⟨bs, hbs, hread⟩
    exact ⟨bs, hbs, hread, hbs ▸ C.hashObject_ok bs⟩

/-- The round trip of an MMR: whatever order the hash table lists the entries in, the encoding decodes
to an MMR with the same entries and the same everything else. -/
def MMR.RoundTrips (C : Crypto) (m : MMR) : Prop :=
  ∀ order : List MMREntry, order.Perm m.setEntries →
    ∃ bytes m', m.writeDataStream order = .ok bytes ∧ Reads (readDataStream C) bytes m' ∧ m.Same m'

/-- **The ids of a `TxPoW` are hashes of encodings:** its own id, that of its body, and those of the
two transactions of the body. -/
structure TxPoW.Hashed (C : Crypto) (t : TxPoW) : Prop where
  header : ∃ bytes, t.header.writeDataStream = .ok bytes ∧ t.txPoWID = ⟨C.hashData bytes⟩
  body : ∀ b ∈ t.body, ∃ bytes, b.writeDataStream = .ok bytes ∧
    C.hashObject b.writeDataStream = ⟨C.hashData bytes⟩
  transaction : ∀ b ∈ t.body, ∃ bytes, b.transaction.writeDataStream = .ok bytes ∧
    b.transaction.calculateTransactionID C = ⟨C.hashData bytes⟩
  burnTransaction : ∀ b ∈ t.body, ∃ bytes, b.burnTransaction.writeDataStream = .ok bytes ∧
    b.burnTransaction.calculateTransactionID C = ⟨C.hashData bytes⟩

theorem TxPoW.hashed_of_held {C : Crypto} {weightText : ℕ → Text} {t : TxPoW} (h : t.Wire C weightText)
    (hheld : t.Held) : t.Hashed C := by
  have hhash : ∀ (w : Result (List Byte)) (bs : List Byte), w = .ok bs →
      ∃ bytes, w = .ok bytes ∧ C.hashObject w = ⟨C.hashData bytes⟩ := by
    rintro w bs rfl
    exact ⟨bs, rfl, C.hashObject_ok bs⟩
  refine ⟨?_, fun b hb => ?_, fun b hb => ?_, fun b hb => ?_⟩
  · obtain ⟨bs, hbs, -⟩ := TxHeader.transmits h.header
    rw [(calculateTXPOWID_eq_ok h.derived).2.2]
    exact hhash _ bs hbs
  · obtain ⟨bs, hbs, -⟩ := TxBody.transmits (h.body b hb) (hheld b hb)
    exact hhash _ bs hbs
  · obtain ⟨bs, hbs, -⟩ := Transaction.transmits (h.body b hb).transaction (hheld b hb).transaction
    exact hhash _ bs hbs
  · obtain ⟨bs, hbs, -⟩ :=
      Transaction.transmits (h.body b hb).burnTransaction (hheld b hb).burnTransaction
    exact hhash _ bs hbs

/-- **When a decoded object makes the round trip and is hashed by its encoding:** exactly when every
state variable in it that holds a number holds one inside the limits of `MiniNumber` (and a witness has
no null coin proof). An MMR always does. -/
theorem roundTrips_iff_held (C : Crypto) (weightText : ℕ → Text) :
    Yields StateVariable.readDataStream (fun sv =>
      RoundTrips C StateVariable.writeDataStream StateVariable.readDataStream sv ↔ sv.Held) ∧
    Yields Coin.readDataStream (fun c =>
      RoundTrips C Coin.writeDataStream Coin.readDataStream c ↔ c.Held) ∧
    Yields Transaction.readDataStream (fun t =>
      RoundTrips C Transaction.writeDataStream Transaction.readDataStream t ↔ t.Held) ∧
    Yields (Witness.readDataStream C) (fun w =>
      RoundTrips C Witness.writeDataStream (Witness.readDataStream C) w ↔ w.Held) ∧
    Yields (TxPoW.readDataStream C weightText) (fun t =>
      RoundTrips C TxPoW.writeDataStream (TxPoW.readDataStream C weightText) t ∧ t.Hashed C ↔ t.Held) ∧
    Yields (TxBlock.readDataStream C weightText) (fun b =>
      RoundTrips C TxBlock.writeDataStream (TxBlock.readDataStream C weightText) b ↔ b.Held) ∧
    Yields (MMR.readDataStream C) (MMR.RoundTrips C) := by
  refine ⟨StateVariable.yields.mono fun sv h => ?_, Coin.yields.mono fun c h => ?_,
    Transaction.yields.mono fun t h => ?_, (Witness.yields C).mono fun w h => ?_,
    TxPoW.yields.mono fun t h => ?_, TxBlock.yields.mono fun b h => ?_,
    (MMR.yields C).mono fun m h order hp => MMR.transmits h hp⟩
  · rw [roundTrips_iff_transmits, StateVariable.transmits_iff h]
  · rw [roundTrips_iff_transmits, Coin.transmits_iff h]
  · rw [roundTrips_iff_transmits, Transaction.transmits_iff h]
  · rw [roundTrips_iff_transmits, Witness.transmits_iff h]
  · rw [roundTrips_iff_transmits, TxPoW.transmits_iff h]
    exact and_iff_left_of_imp (TxPoW.hashed_of_held h)
  · rw [roundTrips_iff_transmits, TxBlock.transmits_iff h]

/-- The number `10^128`, as it is read. -/
def largeNumber : StateVariable := ⟨0, StateVariable.STATETYPE_NUMBER, 49 :: List.replicate 128 48⟩

/-- A transaction without coins that holds it. -/
def largeTransaction : Transaction :=
  ⟨[], [], [largeNumber], ⟨[0]⟩, Transaction.noCoins_length, Transaction.noCoins_length⟩

/-- **A number out of range** is read, and then cannot be written: the state variable and its
transaction do not make the round trip, and the id of the transaction is empty. -/
theorem decoded_not_roundTrips :
    StateVariable.readDataStream [0, 2, 128, 1, 1] = (.ok largeNumber, []) ∧
      ¬ RoundTrips .plain StateVariable.writeDataStream StateVariable.readDataStream largeNumber ∧
      Transaction.readDataStream [0, 1, 0, 0, 1, 0, 0, 1, 1, 0, 2, 128, 1, 1, 0, 0, 0, 1, 0] =
        (.ok largeTransaction, []) ∧
      ¬ RoundTrips .plain Transaction.writeDataStream Transaction.readDataStream largeTransaction ∧
      largeTransaction.calculateTransactionID .plain = ⟨[]⟩ := by
  have hnumber : largeNumber.writeDataStream =
      throwException "MiniNumber too large - outside allowed range 2^64 " := by decide +kernel
  have htransaction : largeTransaction.writeDataStream =
      throwException "MiniNumber too large - outside allowed range 2^64 " := by decide +kernel
  refine ⟨by decide +kernel, ?_, by decide +kernel, ?_, by decide +kernel⟩
  · rintro ⟨bs, hbs, -⟩
    rw [hnumber] at hbs
    cases hbs
  · rintro ⟨bs, hbs, -⟩
    rw [htransaction] at hbs
    cases hbs

end Minima
