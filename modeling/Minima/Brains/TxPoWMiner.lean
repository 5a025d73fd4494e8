import Minima.Lib.Overwriting
import Minima.Objects.MadeBlock
import Minima.Objects.MagicChain
import Minima.Objects.RoundTrip
import Minima.Objects.SuperParentRuns

/-! # `TxPoWMiner`

The miner writes the header once, with a large nonce, and then patches a counter into the bytes of the
nonce, hashing the buffer after each patch. When a hash is below the difficulty of the transaction, the
nonce is read out of the buffer and stored in the `TxPoW`, whose id is the hash of its header written
again.

* **`search`** — the loop; **`search_eq_some`** — where it stops, and on which bytes.
* **`Made`** — the headers that there are; **`Made.readable`** — the reader takes what they are written as.
* **`mined_survives`** — the id of the mined `TxPoW` is the hash that the loop found. -/

namespace Minima

open TwosComplement BigEndian Overwriting

namespace TxPoWMiner

/-- `START_NONCE_BYTES`, `100000000000000000.00000000000000000000000000000000000000001`. -/
def START_NONCE_BYTES : StoredNumber :=
  ⟨⟨10 ^ 58 + 1, 41⟩, by
    refine ⟨by norm_num [MiniNumber.maxDigits], by decide, by norm_num, ?_⟩
    norm_num [MiniNumber.toRat, Decimal.value, MiniNumber.maxValue]⟩

example : MiniNumber.ofText (MiniNumber.ascii
    "100000000000000000.00000000000000000000000000000000000000001") = .ok START_NONCE_BYTES.val := by
  decide +kernel

/-! ## The loop -/

/-- `cpp_int_to_twos_comp_bytes` of the counter, which is never negative. The handler has the same code
in its loop. -/
def cppIntToTwosCompBytes (v : ℕ) : List Byte := positiveBytes v

/-- The loop over the counter, for as many turns as `isRunning` or the time limit let it make: the
counter and the bytes that it stops on. The buffer keeps the patches of the turns before. -/
def search (C : Crypto) (difficulty : MiniData) : ℕ → ℕ → List Byte → Option (ℕ × List Byte)
  | 0, _, _ => none
  | turns + 1, newnonce, data =>
    let noncebytes := cppIntToTwosCompBytes newnonce
    if 4 + noncebytes.length ≤ data.length then
      let data := overwrite 4 noncebytes data
      if (MiniData.mk (C.hashData data)).isLess difficulty then some (newnonce, data)
      else search C difficulty turns (newnonce + 1) data
    else search C difficulty turns (newnonce + 1) data

/-! ## Before and after it -/

/-- `TxPoW::setHeaderBodyHash`. -/
def setHeaderBodyHash (C : Crypto) (h : TxHeader) (b : TxBody) : Result TxHeader :=
  match b.writeDataStream with
  | .error (.undefined what) => undefinedBehaviour what
  | bytes => .ok { h with txBodyHash := C.hashObject bytes }

/-- `TxPoW::setNonce`. -/
def setNonce (h : TxHeader) (zNonce : StoredNumber) : TxHeader := { h with nonce := zNonce }

/-- What the loop starts from: the header with the hash of the body and the large nonce, the body, and
the header written as `data`. -/
structure Prepared where
  header : TxHeader
  body : TxBody
  data : List Byte
  written : header.writeDataStream = .ok data
  nonce : header.nonce = START_NONCE_BYTES

/-- The steps before the loop. A header that cannot be written is given up. -/
def prepare (C : Crypto) (txpow : TxPoW) : Result (Option Prepared) := do
  let body ← txpow.getTxBody
  let header ← setHeaderBodyHash C txpow.header body
  match h : (setNonce header START_NONCE_BYTES).writeDataStream with
  | .ok data => return some ⟨_, body, data, h, rfl⟩
  | .error (.exception _) => return none
  | .error (.undefined what) => undefinedBehaviour what

/-- `mNonce` of `TxHeader::convertMiniDataVersion`: of the default header, zero, when the bytes cannot
be read. -/
def nonceOf (zTxpData : List Byte) : Result StoredNumber :=
  match (TxHeader.readDataStream zTxpData).1 with
  | .ok txh => .ok txh.nonce
  | .error (.exception _) => .ok ⟨.zero, MiniNumber.canonical_zero⟩
  | .error (.undefined what) => undefinedBehaviour what

section Mining

variable (C : Crypto) (weightText : ℕ → Text)

/-- The steps after the loop: the nonce is stored and the id calculated. -/
def applyNonce (p : Prepared) (finalnonce : StoredNumber) : Result TxPoW :=
  TxPoW.calculateTXPOWID C weightText (setNonce p.header finalnonce) (some p.body)

/-- The handler of `TXPOWMINER_MINETXPOW`. A loop that is told to stop leaves the nonce at zero. -/
def mineTxPoW (txpow : TxPoW) (turns : ℕ) : Result (Option TxPoW) := do
  match ← prepare C txpow with
  | none => return none
  | some p =>
    let finalnonce ← match search C p.body.txnDifficulty turns 0 p.data with
      | some (_, finaldata) => nonceOf finaldata
      | none => .ok ⟨.zero, MiniNumber.canonical_zero⟩
    let mined ← applyNonce C weightText p finalnonce
    return some mined

/-- `MineMaxTxPoW`. A loop that takes too long returns false, here nothing. -/
def mineMaxTxPoW (txpow : TxPoW) (turns : ℕ) : Result (Option TxPoW) := do
  match ← prepare C txpow with
  | none => return none
  | some p =>
    match search C p.body.txnDifficulty turns 0 p.data with
    | none => return none
    | some (_, finaldata) =>
      let finalnonce ← nonceOf finaldata
      let mined ← applyNonce C weightText p finalnonce
      return some mined

end Mining

/-! ## The nonce in the buffer -/

/-- The first bytes of the large nonce: scale, length, and the two digits that no patch reaches. -/
theorem writeDataStream_startNonce : ∃ tail, START_NONCE_BYTES.val.writeDataStream = [41, 25, 1, 151] ++ tail ∧
    tail.length = 23 :=
  ⟨START_NONCE_BYTES.val.writeDataStream.drop 4, by decide +kernel, by decide +kernel⟩

theorem length_startNonce : START_NONCE_BYTES.val.writeDataStream.length = 27 := by
  obtain ⟨tail, hstart, htail⟩ := writeDataStream_startNonce
  rw [hstart, List.length_append, htail]
  rfl

/-- Twenty-five bytes that begin as the large nonce does are a number that the writer writes so. -/
theorem exists_nonce {bs : List Byte} (h : bs.length = 23) :
    ∃ nonce : StoredNumber, nonce.val.writeDataStream = [41, 25, 1, 151] ++ bs := by
  have hlen : (1 :: 151 :: bs : List Byte).length = 25 := by simp [h]
  have hlow : 256 ^ 24 ≤ ofBytesBE (1 :: 151 :: bs) := by
    have hpow := pow_le_ofBytesBE (show (1 : Byte) ≠ 0 by decide) (151 :: bs)
    rwa [List.length_cons, h] at hpow
  have hhigh : ofBytesBE (1 :: 151 :: bs) < 256 ^ 25 := by
    have hlt := ofBytesBE_lt (1 :: 151 :: bs)
    rwa [hlen] at hlt
  set u := ofBytesBE (1 :: 151 :: bs) with hu
  have hpos : (0 : ℤ) < u := by
    have : 0 < u := lt_of_lt_of_le (by positivity) hlow
    exact_mod_cast this
  have habs : |(u : ℤ)| < 10 ^ 64 := by
    rw [abs_of_pos hpos]
    exact_mod_cast hhigh.trans (by norm_num)
  refine ⟨⟨⟨u, 41⟩, ⟨habs, (by decide : (41 : ℤ) ≤ 44), fun h0 => absurd h0 hpos.ne', ?_⟩⟩, ?_⟩
  · have hvalue : |MiniNumber.toRat ⟨u, 41⟩| ≤ 10 ^ 23 := by
      rw [MiniNumber.toRat, Decimal.abs_value, Decimal.value]
      have : ((|(u : ℤ)| : ℤ) : ℚ) ≤ 10 ^ 64 := by exact_mod_cast habs.le
      calc ((|(u : ℤ)| : ℤ) : ℚ) * 10 ^ (-41 : ℤ) ≤ 10 ^ 64 * 10 ^ (-41 : ℤ) := by gcongr
        _ = 10 ^ 23 := by norm_num
    exact hvalue.trans (by norm_num [MiniNumber.maxValue])
  · simp only [MiniNumber.writeDataStream, MiniNumber.toTwosComplementBytes]
    rw [if_neg hpos.ne', if_pos hpos, Int.natAbs_natCast, hu,
      positiveBytes_ofBytesBE (by decide) (by decide), hlen]
    rfl

/-- **A patch leaves a nonce** in the buffer; what does not fit in its bytes goes over what is behind
it. -/
theorem exists_nonce_of_patch (bytes rest : List Byte) :
    ∃ (nonce : StoredNumber) (bs : List Byte), nonce.val.writeDataStream = [41, 25, 1, 151] ++ bs ∧
      overwrite 4 bytes (START_NONCE_BYTES.val.writeDataStream ++ rest) =
        nonce.val.writeDataStream ++ overwrite 0 (bytes.drop 23) rest := by
  obtain ⟨tail, hstart, htail⟩ := writeDataStream_startNonce
  have hfield := length_startNonce
  have hinside : ∀ as : List Byte, as.length ≤ 23 → ∃ (nonce : StoredNumber) (bs : List Byte),
      nonce.val.writeDataStream = [41, 25, 1, 151] ++ bs ∧
        overwrite 4 as START_NONCE_BYTES.val.writeDataStream = nonce.val.writeDataStream := by
    intro as has
    obtain ⟨nonce, hnonce⟩ := @exists_nonce (as ++ tail.drop as.length) (by
      rw [List.length_append, List.length_drop]
      omega)
    have hfour : ([41, 25, 1, 151] : List Byte).length = 4 := rfl
    refine ⟨nonce, _, hnonce, ?_⟩
    rw [hnonce, hstart, overwrite, List.take_left' hfour, ← List.drop_drop, List.drop_left' hfour]
  obtain ⟨nonce, bs, hbytes, hnonce⟩ := hinside (bytes.take 23) (by
    rw [List.length_take]
    omega)
  refine ⟨nonce, bs, hbytes, ?_⟩
  rcases le_or_gt bytes.length 23 with hle | hgt
  · rw [List.take_of_length_le hle] at hnonce
    rw [List.drop_eq_nil_of_le hle, overwrite_nil, overwrite_append_left (by omega), hnonce]
  · conv_lhs => rw [← List.take_append_drop 23 bytes]
    rw [overwrite_append (by rw [List.length_take]; omega), hnonce]

/-! ## What the loop stops on -/

/-- **The loop stops on one patch of the header**: the patches of the turns before are hidden by the
last one, whose hash is below the difficulty. -/
theorem search_eq_some {C : Crypto} {difficulty : MiniData} {turns n : ℕ} {data found : List Byte}
    (h : search C difficulty turns 0 data = some (n, found)) :
    found = overwrite 4 (cppIntToTwosCompBytes n) data ∧
      4 + (cppIntToTwosCompBytes n).length ≤ data.length ∧
      (MiniData.mk (C.hashData found)).isLess difficulty = true := by
  -- whatever hides the last patch made leaves nothing of the earlier ones
  have hrun : ∀ turns m (cur : List Byte), cur.length = data.length →
      (∀ bs, (cppIntToTwosCompBytes m).length ≤ bs.length → 4 + bs.length ≤ data.length →
        overwrite 4 bs cur = overwrite 4 bs data) →
      search C difficulty turns m cur = some (n, found) →
      found = overwrite 4 (cppIntToTwosCompBytes n) data ∧
        4 + (cppIntToTwosCompBytes n).length ≤ data.length ∧
        (MiniData.mk (C.hashData found)).isLess difficulty = true := by
    intro turns
    induction turns with
    | zero => intro m cur _ _ h; simp [search] at h
    | succ turns ih =>
      intro m cur hlen hhides h
      have hmono : (cppIntToTwosCompBytes m).length ≤ (cppIntToTwosCompBytes (m + 1)).length :=
        length_positiveBytes_mono m.le_succ
      simp only [search] at h
      split_ifs at h with hfit hless
      · rw [hlen] at hfit
        rw [Option.some.injEq, Prod.mk.injEq] at h
        obtain ⟨rfl, rfl⟩ := h
        exact ⟨hhides _ le_rfl hfit, hfit, hless⟩
      · refine ih (m + 1) _ (by rw [length_overwrite hfit, hlen]) (fun bs hbs hin => ?_) h
        rw [overwrite_overwrite (hmono.trans hbs) (by rwa [hlen])]
        exact hhides bs (hmono.trans hbs) hin
      · exact ih (m + 1) cur hlen (fun bs hbs hin => hhides bs (hmono.trans hbs) hin) h
  exact hrun turns 0 data rfl (fun _ _ _ => rfl) h

/-! ## The header around the nonce -/

/-- `TxHeader::readDataStream` behind the nonce, which is still that of the default header. -/
def readBehindNonce : Reader TxHeader := do
  let chainID ← MiniData.readDataStream
  let timeMilli ← StoredNumber.read
  let blockNumber ← StoredNumber.read
  let blockDifficulty ← MiniData.readDataStream
  let superParents ← TxHeader.readSuperParents
  let mmrRoot ← MiniData.readHashFromStream
  let mmrTotal ← StoredNumber.read
  let magic ← Magic.readDataStream
  let customHash ← MiniData.readHashFromStream
  let txBodyHash ← MiniData.readHashFromStream
  return ⟨⟨.zero, MiniNumber.canonical_zero⟩, chainID, timeMilli, blockNumber, blockDifficulty,
    superParents, mmrRoot, mmrTotal, magic, customHash, txBodyHash⟩

theorem readDataStream_eq : TxHeader.readDataStream =
    StoredNumber.read >>= fun nonce => (fun txh => setNonce txh nonce) <$> readBehindNonce := by
  simp only [TxHeader.readDataStream, readBehindNonce, map_bind, map_pure, setNonce]

/-- A header is its nonce, its chain id, and what is behind them. -/
theorem exists_behindChainID {h : TxHeader} {data : List Byte} (hw : h.writeDataStream = .ok data) :
    ∃ behind, ∀ nonce chainID, ({ h with nonce, chainID } : TxHeader).writeDataStream =
      .ok (nonce.val.writeDataStream ++ (chainID.writeDataStream ++ behind)) := by
  unfold TxHeader.writeDataStream at hw
  obtain ⟨supers, hsupers, hw⟩ := Result.bind_eq_ok.mp hw
  obtain ⟨mmrRoot, hroot, hw⟩ := Result.bind_eq_ok.mp hw
  obtain ⟨customHash, hcustom, hw⟩ := Result.bind_eq_ok.mp hw
  obtain ⟨txBodyHash, hbody, hw⟩ := Result.bind_eq_ok.mp hw
  refine ⟨h.timeMilli.val.writeDataStream ++ (h.blockNumber.val.writeDataStream ++
    (h.blockDifficulty.writeDataStream ++ (supers ++ (mmrRoot ++ (h.mmrTotal.val.writeDataStream ++
      (h.magic.writeDataStream ++ (customHash ++ txBodyHash))))))), fun nonce chainID => ?_⟩
  simp only [TxHeader.writeDataStream, hsupers, hroot, hcustom, hbody, ← List.append_assoc]
  rfl

/-- The header can be read back. -/
def Readable (data : List Byte) : Prop := ∃ txh rest, TxHeader.readDataStream data = (.ok txh, rest)

/-- Reading a header with its nonce at the front. -/
theorem readDataStream_append (nonce : StoredNumber) (rest : List Byte) :
    TxHeader.readDataStream (nonce.val.writeDataStream ++ rest) =
      ((fun txh => setNonce txh nonce) <$> readBehindNonce) rest := by
  rw [readDataStream_eq, (StoredNumber.reads nonce).bind_apply]

/-- Whether a header can be read is decided behind its nonce. -/
theorem readable_append_iff {nonce : StoredNumber} {rest : List Byte} :
    Readable (nonce.val.writeDataStream ++ rest) ↔
      ∃ txh left, readBehindNonce rest = (.ok txh, left) := by
  unfold Readable
  rw [readDataStream_append]
  constructor
  · rintro ⟨txh, left, h⟩
    obtain ⟨behind, left', hread, -⟩ := Reader.bind_eq_ok.mp h
    exact ⟨behind, left', hread⟩
  · rintro ⟨txh, left, hread⟩
    exact ⟨setNonce txh nonce, left, Reader.bind_eq_ok.mpr ⟨txh, left, hread, rfl⟩⟩

/-- A header that can be read gives the nonce at its front. -/
theorem nonceOf_of_readable {nonce : StoredNumber} {rest : List Byte}
    (h : Readable (nonce.val.writeDataStream ++ rest)) :
    nonceOf (nonce.val.writeDataStream ++ rest) = .ok nonce := by
  obtain ⟨txh, left, hread⟩ := readable_append_iff.mp h
  have htxh : TxHeader.readDataStream (nonce.val.writeDataStream ++ rest) =
      (.ok (setNonce txh nonce), left) := by
    rw [readDataStream_append]
    exact Reader.bind_eq_ok.mpr ⟨txh, left, hread, rfl⟩
  simp only [nonceOf, htxh, setNonce]

/-- A header that cannot be read gives the nonce of the default one. -/
theorem nonceOf_of_not_readable {data : List Byte} {nonce : StoredNumber} (h : ¬ Readable data)
    (hn : nonceOf data = .ok nonce) : nonce = ⟨.zero, MiniNumber.canonical_zero⟩ := by
  unfold nonceOf at hn
  cases hread : TxHeader.readDataStream data with
  | mk out rest =>
    rw [hread] at hn
    cases out with
    | ok txh => exact absurd ⟨txh, rest, hread⟩ h
    | error e =>
      cases e with
      | exception what => exact (Except.ok.inj hn).symm
      | undefined what => exact absurd hn (undefinedBehaviour_ne_ok _ _)

/-! ## The id of the mined `TxPoW` -/

/-- The steps before the loop change the hash of the body and the nonce, and run into nothing undefined
in the body. -/
theorem prepare_eq_some {C : Crypto} {txpow : TxPoW} {p : Prepared} (h : prepare C txpow = .ok (some p)) :
    (∃ txBodyHash, p.header = setNonce { txpow.header with txBodyHash } START_NONCE_BYTES) ∧
      ∀ what, p.body.writeDataStream ≠ .error (.undefined what) := by
  unfold prepare at h
  obtain ⟨body, -, h⟩ := Result.bind_eq_ok.mp h
  obtain ⟨header, hheader, h⟩ := Result.bind_eq_ok.mp h
  have hbody : ∀ what, body.writeDataStream ≠ .error (.undefined what) := by
    intro what hwhat
    rw [setHeaderBodyHash, hwhat] at hheader
    exact undefinedBehaviour_ne_ok _ _ hheader
  have hhash : ∃ txBodyHash, header = { txpow.header with txBodyHash } := by
    unfold setHeaderBodyHash at hheader
    split at hheader
    · exact absurd hheader (undefinedBehaviour_ne_ok _ _)
    · exact ⟨_, (Except.ok.inj hheader).symm⟩
  obtain ⟨txBodyHash, rfl⟩ := hhash
  split at h
  · obtain rfl := Option.some.inj (Result.pure_eq_ok.mp h)
    exact ⟨⟨txBodyHash, rfl⟩, hbody⟩
  · exact absurd (Result.pure_eq_ok.mp h) (by simp)
  · exact absurd h (undefinedBehaviour_ne_ok _ _)

/-- What a stored nonce gives: the header written with it, and the hash of these bytes as the id. -/
theorem applyNonce_eq_ok (C : Crypto) (weightText : ℕ → Text) {p : Prepared}
    (hbody : ∀ what, p.body.writeDataStream ≠ .error (.undefined what)) {nonce : StoredNumber}
    {bytes : List Byte} (hbytes : (setNonce p.header nonce).writeDataStream = .ok bytes) :
    ∃ t, applyNonce C weightText p nonce = .ok t ∧ t.header.writeDataStream = .ok bytes ∧
      t.txPoWID = ⟨C.hashData bytes⟩ := by
  obtain ⟨t, ht⟩ : ∃ t, applyNonce C weightText p nonce = .ok t := by
    unfold applyNonce TxPoW.calculateTXPOWID TxPoW.encode
    rw [hbytes]
    cases hb : p.body.writeDataStream with
    | ok bs => simp [TxPoW.writeBody, hb, bind, Except.bind, pure, Except.pure]
    | error e =>
      cases e with
      | exception what => simp [TxPoW.writeBody, hb, bind, Except.bind, pure, Except.pure]
      | undefined what => exact absurd hb (hbody what)
  obtain ⟨hheader, -, hid⟩ := TxPoW.calculateTXPOWID_eq_ok ht
  refine ⟨t, ht, by rw [hheader, hbytes], ?_⟩
  rw [hid, hbytes, C.hashObject_ok]

/-- What the loop patches: the large nonce, and what is behind it. -/
theorem Prepared.exists_behindNonce (p : Prepared) :
    ∃ rest, (∀ nonce, (setNonce p.header nonce).writeDataStream = .ok (nonce.val.writeDataStream ++ rest)) ∧
      p.data = START_NONCE_BYTES.val.writeDataStream ++ rest := by
  obtain ⟨behind, hbehind⟩ := exists_behindChainID p.written
  refine ⟨p.header.chainID.writeDataStream ++ behind, fun nonce => hbehind nonce p.header.chainID, ?_⟩
  have h : p.header.writeDataStream = .ok (p.header.nonce.val.writeDataStream ++
      (p.header.chainID.writeDataStream ++ behind)) := hbehind p.header.nonce p.header.chainID
  rw [p.nonce] at h
  exact Except.ok.inj (p.written.symm.trans h)

/-- Where the id keeps the hash that the loop found with this counter: the header can be read back, and
the bytes of the counter that do not fit behind the first ones of the nonce are those that are there. -/
def Keeps (p : Prepared) (newnonce : ℕ) : Prop :=
  Readable p.data ∧ (cppIntToTwosCompBytes newnonce).drop 23 <+: p.data.drop 27

/-- The nonce of the buffer stored, and the id calculated. -/
def storeFound (C : Crypto) (weightText : ℕ → Text) (p : Prepared) (found : List Byte) : Result TxPoW :=
  nonceOf found >>= applyNonce C weightText p

/-- A found hash is stored in the same way by the handler and by `MineMaxTxPoW`. -/
theorem mine_eq_storeFound {C : Crypto} (weightText : ℕ → Text) {txpow : TxPoW} {turns n : ℕ}
    {p : Prepared} {found : List Byte} (hp : prepare C txpow = .ok (some p))
    (hstop : search C p.body.txnDifficulty turns 0 p.data = some (n, found)) :
    mineTxPoW C weightText txpow turns = some <$> storeFound C weightText p found ∧
      mineMaxTxPoW C weightText txpow turns = some <$> storeFound C weightText p found := by
  constructor
  · simp only [mineTxPoW, hp, hstop, Result.ok_bind, storeFound, bind_assoc, map_eq_pure_bind]
  · simp only [mineMaxTxPoW, hp, hstop, Result.ok_bind, storeFound, bind_assoc, map_eq_pure_bind]

section Stored

variable {C : Crypto} (weightText : ℕ → Text) {p : Prepared} {n turns : ℕ} {found : List Byte}

/-- **A counter that keeps the header** leaves the bytes found in it: they are what the header is written
as when the nonce is stored, and so their hash is the id. -/
theorem storeFound_of_keeps (hbody : ∀ what, p.body.writeDataStream ≠ .error (.undefined what))
    (hstop : search C p.body.txnDifficulty turns 0 p.data = some (n, found)) (hkeeps : Keeps p n) :
    ∃ t, storeFound C weightText p found = .ok t ∧ t.header.writeDataStream = .ok found ∧
      t.txPoWID = ⟨C.hashData found⟩ := by
  obtain ⟨rest, hrest, hdata⟩ := p.exists_behindNonce
  obtain ⟨nonce, bs, hbytes, hnonce⟩ := exists_nonce_of_patch (cppIntToTwosCompBytes n) rest
  obtain ⟨hfound, -, -⟩ := search_eq_some hstop
  have hdrop : p.data.drop 27 = rest := by
    rw [hdata, List.drop_left' length_startNonce]
  obtain ⟨hread, hover⟩ := hkeeps
  rw [hdrop] at hover
  rw [hdata, readable_append_iff] at hread
  rw [hdata, hnonce, overwrite_zero_eq_self_iff.mpr hover] at hfound
  have hnonceOf := nonceOf_of_readable
    (readable_append_iff.mpr hread : Readable (nonce.val.writeDataStream ++ rest))
  obtain ⟨t, ht, hheader, hid⟩ := applyNonce_eq_ok C weightText hbody (hrest nonce)
  rw [hfound]
  exact ⟨t, Result.bind_eq_ok.mpr ⟨nonce, hnonceOf, ht⟩, hheader, hid⟩

/-- **Only a counter that keeps the header** does so, as long as no other bytes have the hash found. -/
theorem keeps_of_storeFound (hbody : ∀ what, p.body.writeDataStream ≠ .error (.undefined what))
    (hstop : search C p.body.txnDifficulty turns 0 p.data = some (n, found))
    (hcollision : ∀ bytes, C.hashData bytes = C.hashData found → bytes = found) {t : TxPoW}
    (ht : storeFound C weightText p found = .ok t) (hid : t.txPoWID = ⟨C.hashData found⟩) : Keeps p n := by
  obtain ⟨rest, hrest, hdata⟩ := p.exists_behindNonce
  obtain ⟨nonce, bs, hbytes, hnonce⟩ := exists_nonce_of_patch (cppIntToTwosCompBytes n) rest
  obtain ⟨hfound, -, -⟩ := search_eq_some hstop
  rw [hdata, hnonce] at hfound
  obtain ⟨finalnonce, hfinal, ht⟩ := Result.bind_eq_ok.mp ht
  obtain ⟨t', ht', -, hid'⟩ := applyNonce_eq_ok C weightText hbody (hrest finalnonce)
  obtain rfl : t' = t := Except.ok.inj (ht'.symm.trans ht)
  have hsame : finalnonce.val.writeDataStream ++ rest = found := by
    refine hcollision _ ?_
    rw [hid, MiniData.mk.injEq] at hid'
    exact hid'.symm
  by_cases hread : Readable found
  · -- the nonce read back is the one of the buffer, so what is behind it is not changed
    rw [hfound] at hread hfinal hsame
    rw [nonceOf_of_readable hread, Except.ok.injEq] at hfinal
    rw [← hfinal] at hsame
    have hkept := List.append_cancel_left hsame
    rw [readable_append_iff, ← hkept] at hread
    unfold Keeps
    rw [hdata, List.drop_left' length_startNonce, readable_append_iff]
    exact ⟨hread, overwrite_zero_eq_self_iff.mp hkept.symm⟩
  · -- the default nonce, zero, does not begin as the large one
    have hzero : MiniNumber.zero.writeDataStream = [0, 1, 0] := by decide +kernel
    rw [nonceOf_of_not_readable hread hfinal, hfound, hbytes, hzero] at hsame
    exact absurd (List.cons.inj hsame).1 (by decide)

end Stored

/-- **A header that can be read keeps the counters below 2^183**, which fit in the nonce. -/
theorem keeps_of_lt {p : Prepared} {newnonce : ℕ} (hread : Readable p.data)
    (hlt : newnonce < 128 * 256 ^ 22) : Keeps p newnonce := by
  have hlen : (cppIntToTwosCompBytes newnonce).length ≤ 23 := length_positiveBytes_le hlt
  refine ⟨hread, ?_⟩
  rw [List.drop_eq_nil_of_le hlen]
  exact List.nil_prefix

/-! ## The headers that there are -/

/-- `TxHeader::TxHeader`, at this time. -/
def constructed (timeMilli : StoredNumber) : TxHeader where
  nonce := ⟨.zero, MiniNumber.canonical_zero⟩
  chainID := ⟨[0]⟩
  timeMilli := timeMilli
  blockNumber := ⟨.zero, MiniNumber.canonical_zero⟩
  blockDifficulty := Crypto.MAX_HASH
  superParents := fun _ => ⟨[]⟩
  mmrRoot := ⟨[0]⟩
  mmrTotal := ⟨.zero, MiniNumber.canonical_zero⟩
  magic := Magic.defaults
  customHash := MiniData.zeroTxPowID
  txBodyHash := ⟨[0]⟩

/-- The headers of the code: of the constructor or the reader, and then with other values of the setters
of `TxPoW`. There is none for the chain id; the difficulty and the `Magic` that are set were calculated or
read, so the reader takes them, and of the hashes that are set the writer takes no longer ones than the
reader. -/
inductive Made : TxHeader → Prop
  | constructed (timeMilli : StoredNumber) : Made (constructed timeMilli)
  | read {bytes rest : List Byte} {h : TxHeader} (hread : TxHeader.readDataStream bytes = (.ok h, rest)) : Made h
  | set {h h' : TxHeader} (hmade : Made h) (hchain : h'.chainID = h.chainID)
      (hdifficulty : h'.blockDifficulty.getLength ≤ MiniData.maxMiniDataLength) (hmagic : h'.magic.Wire) : Made h'

/-- What has no limit in the writer is inside the limits of the reader. -/
theorem Made.limits {h : TxHeader} (hmade : Made h) :
    h.chainID.getLength ≤ MiniData.maxMiniDataLength ∧
      h.blockDifficulty.getLength ≤ MiniData.maxMiniDataLength ∧ h.magic.Wire := by
  induction hmade with
  | constructed timeMilli =>
    have hmagic : Magic.defaults.Wire := ⟨by decide, by decide⟩
    exact ⟨by show (1 : ℕ) ≤ _; decide, by show (32 : ℕ) ≤ _; decide, hmagic⟩
  | read hread =>
    have hwire := TxHeader.yields hread
    exact ⟨hwire.chainID, hwire.blockDifficulty, hwire.magic⟩
  | set _ hchain hdifficulty hmagic ih => exact ⟨by rw [hchain]; exact ih.1, hdifficulty, hmagic⟩

/-- The super parents of a header that was written are hashes. -/
theorem length_superParents {h : TxHeader} {supers : List Byte}
    (hw : Coin.writeAll TxHeader.writeRun (TxHeader.runs (List.ofFn h.superParents)) = .ok supers)
    (i : Fin cascadeLevels) : (h.superParents i).getLength ≤ MiniData.maxHashLength := by
  have hmem : h.superParents i ∈ TxHeader.expand (TxHeader.runs (List.ofFn h.superParents)) := by
    rw [(TxHeader.runs_spec _).1]
    exact List.mem_ofFn.mpr ⟨i, rfl⟩
  obtain ⟨run, hrun, hparent⟩ := List.mem_flatMap.mp hmem
  rw [List.eq_of_mem_replicate hparent]
  exact TxHeader.length_of_writeAll hw run hrun

/-- **A header of the code that can be written can be read.** -/
theorem Made.wire {h : TxHeader} (hmade : Made h) {data : List Byte} (hw : h.writeDataStream = .ok data) :
    h.Wire := by
  obtain ⟨hchain, hdifficulty, hmagic⟩ := hmade.limits
  simp only [TxHeader.writeDataStream, Result.bind_eq_ok] at hw
  obtain ⟨_, hsupers, _, hroot, _, hcustom, _, hbody, -⟩ := hw
  exact ⟨hchain, hdifficulty, length_superParents hsupers, TxBlock.length_of_writeHashToStream hroot, hmagic,
    TxBlock.length_of_writeHashToStream hcustom, TxBlock.length_of_writeHashToStream hbody⟩

/-- A header made of data that the reader takes can be read. -/
theorem readable_of_wire {p : Prepared} (h : p.header.Wire) : Readable p.data := by
  obtain ⟨bs, hbs, hread⟩ := TxHeader.transmits h
  obtain rfl : bs = p.data := Except.ok.inj (hbs.symm.trans p.written)
  exact ⟨p.header, [], by simpa using hread []⟩

/-- The header that the loop patches is one of the code's own. -/
theorem Made.readable {C : Crypto} {txpow : TxPoW} (hmade : Made txpow.header) {p : Prepared}
    (hprepare : prepare C txpow = .ok (some p)) : Readable p.data := by
  obtain ⟨⟨txBodyHash, hheader⟩, -⟩ := prepare_eq_some hprepare
  have hlimits := hmade.limits
  have hset : Made p.header := .set hmade (by rw [hheader]; rfl) (by rw [hheader]; exact hlimits.2.1)
    (by rw [hheader]; exact hlimits.2.2)
  exact readable_of_wire (hset.wire p.written)

/-- **A mined nonce survives.** Whenever the loop stops, with a counter below 2^183, on bytes whose hash is
below the difficulty, the handler and `MineMaxTxPoW` store a nonce with which the header is written as these
bytes, and the id is their hash. -/
theorem mined_survives (C : Crypto) (weightText : ℕ → Text) (txpow : TxPoW) (turns newnonce : ℕ)
    (p : Prepared) (found : List Byte) (hmade : Made txpow.header)
    (hprepare : prepare C txpow = .ok (some p))
    (hstop : search C p.body.txnDifficulty turns 0 p.data = some (newnonce, found))
    (hlt : newnonce < 2 ^ 183) :
    (MiniData.mk (C.hashData found)).isLess p.body.txnDifficulty = true ∧
      ∃ t, mineTxPoW C weightText txpow turns = .ok (some t) ∧
        mineMaxTxPoW C weightText txpow turns = .ok (some t) ∧
        t.header.writeDataStream = .ok found ∧ t.txPoWID = ⟨C.hashData found⟩ := by
  obtain ⟨-, -, hless⟩ := search_eq_some hstop
  obtain ⟨hhandler, hmax⟩ := mine_eq_storeFound weightText hprepare hstop
  have hkeeps : Keeps p newnonce := keeps_of_lt (hmade.readable hprepare) (hlt.trans_eq (by norm_num))
  obtain ⟨t, ht, hheader, hid⟩ := storeFound_of_keeps weightText (prepare_eq_some hprepare).2 hstop hkeeps
  rw [ht] at hhandler hmax
  exact ⟨hless, t, hhandler, hmax, hheader, hid⟩

/-! ### A run that stops at once -/

/-- A hash that is small for one string only. -/
def lucky (found : List Byte) : Crypto := ⟨fun bs => if bs = found then [0] else [1]⟩

@[simp] theorem lucky_found (found : List Byte) : (lucky found).hashData found = [0] := if_pos rfl

theorem lucky_of_ne {found bytes : List Byte} (h : bytes ≠ found) : (lucky found).hashData bytes = [1] :=
  if_neg h

/-- A `TxPoW` without coins. -/
def plainTxPoW : TxPoW where
  header := TxPoW.sampleHeader TxPoW.oneStored TxPoW.oneStored fun _ => ⟨[0]⟩
  body := some ⟨⟨[0]⟩, ⟨[1]⟩,
    ⟨[], [], [], ⟨[0]⟩, Transaction.noCoins_length, Transaction.noCoins_length⟩, .empty,
    ⟨[], [], [], ⟨[0]⟩, Transaction.noCoins_length, Transaction.noCoins_length⟩, .empty, []⟩
  txPoWID := ⟨[]⟩
  blockWeight := MiniNumber.ascii "0"
  isBlockPOW := false
  isTxnPOW := false
  superBlock := TxPoW.clampSuperBlock 0
  txPoWSize := 0

/-- The header that is patched, with the hash `[1]` of the body. -/
def plainHeader : TxHeader := setNonce { plainTxPoW.header with txBodyHash := ⟨[1]⟩ } START_NONCE_BYTES

/-- Its first patch. -/
def firstPatch : List Byte :=
  match plainHeader.writeDataStream with
  | .ok data => overwrite 4 [0] data
  | .error _ => []

theorem plainHeader_writes : ∃ behind, plainHeader.writeDataStream =
    .ok (START_NONCE_BYTES.val.writeDataStream ++ behind) := by
  have hwire : plainHeader.Wire :=
    ⟨by decide, by decide, by decide, by decide, ⟨by decide, by decide⟩, by decide, by decide⟩
  obtain ⟨data, hdata, -⟩ := TxHeader.transmits hwire
  obtain ⟨behind, hbehind⟩ := exists_behindChainID hdata
  exact ⟨_, hbehind START_NONCE_BYTES plainHeader.chainID⟩

/-- A body and a header that can be written are prepared. -/
theorem prepare_of_writes {C : Crypto} {txpow : TxPoW} {body : TxBody} {bodyBytes data : List Byte}
    (hbody : txpow.body = some body) (hbytes : body.writeDataStream = .ok bodyBytes)
    (hdata : (setNonce { txpow.header with txBodyHash := ⟨C.hashData bodyBytes⟩ }
      START_NONCE_BYTES).writeDataStream = .ok data) :
    ∃ p, prepare C txpow = .ok (some p) ∧ p.body = body ∧ p.data = data := by
  have hheader : setHeaderBodyHash C txpow.header body =
      .ok { txpow.header with txBodyHash := ⟨C.hashData bodyBytes⟩ } := by
    rw [setHeaderBodyHash, hbytes, ← C.hashObject_ok]
  refine ⟨⟨_, body, data, hdata, rfl⟩, ?_, rfl, rfl⟩
  unfold prepare TxPoW.getTxBody
  rw [hbody, Result.ok_bind, hheader, Result.ok_bind]
  split
  · next data' hdata' =>
    obtain rfl : data = data' := Except.ok.inj (hdata.symm.trans hdata')
    rfl
  · next what hwhat => exact absurd (hdata.symm.trans hwhat) (by simp)
  · next what hwhat => exact absurd (hdata.symm.trans hwhat) (by simp)

/-- **The loop stops on the first patch**, if its hash is the only small one. -/
theorem plain_stops : ∃ p : Prepared, prepare (lucky firstPatch) plainTxPoW = .ok (some p) ∧
    search (lucky firstPatch) p.body.txnDifficulty 1 0 p.data = some (0, firstPatch) := by
  obtain ⟨behind, hdata⟩ := plainHeader_writes
  obtain ⟨tail, hstart, htail⟩ := writeDataStream_startNonce
  set data := START_NONCE_BYTES.val.writeDataStream ++ behind with hdef
  have hpatch : firstPatch = overwrite 4 [0] data := by rw [firstPatch, hdata]
  have hfirst : ∃ bs, firstPatch = 41 :: bs := by
    rw [hpatch, hdef, hstart]
    exact ⟨_, rfl⟩
  -- the body, which does not begin so, has the other hash
  obtain ⟨body, bodyBytes, hbody, hdifficulty, hbytes⟩ : ∃ body bodyBytes,
      plainTxPoW.body = some body ∧ body.txnDifficulty = ⟨[1]⟩ ∧
        body.writeDataStream = .ok (0 :: bodyBytes) :=
    ⟨_, _, rfl, rfl, rfl⟩
  have hhash : (lucky firstPatch).hashData (0 :: bodyBytes) = [1] := by
    obtain ⟨bs, hbs⟩ := hfirst
    exact lucky_of_ne (by simp [hbs])
  obtain ⟨p, hp, hpbody, hpdata⟩ := prepare_of_writes hbody hbytes (by rw [hhash]; exact hdata)
  refine ⟨p, hp, ?_⟩
  have hzero : cppIntToTwosCompBytes 0 = [0] := by decide +kernel
  have hfit : 4 + ([0] : List Byte).length ≤ data.length := by
    rw [hdef, List.length_append, length_startNonce, List.length_singleton]
    omega
  have hless : (MiniData.mk ((lucky firstPatch).hashData firstPatch)).isLess ⟨[1]⟩ = true := by
    rw [lucky_found]
    decide
  simp only [search]
  rw [hpbody, hdifficulty, hpdata, hzero, if_pos hfit, ← hpatch, if_pos hless]

theorem mined_survives_plain : ∃ t, mineMaxTxPoW (lucky firstPatch) (fun _ => [49]) plainTxPoW 1 = .ok (some t) ∧
    t.txPoWID = ⟨[0]⟩ := by
  obtain ⟨p, hp, hstop⟩ := plain_stops
  have hmade : Made plainTxPoW.header :=
    .set (.constructed TxPoW.oneStored) rfl (by decide) ⟨by decide, by decide⟩
  obtain ⟨-, t, -, ht, -, hid⟩ := mined_survives (lucky firstPatch) (fun _ => [49]) plainTxPoW 1 0 p _ hmade hp
    hstop (by norm_num)
  rw [lucky_found] at hid
  exact ⟨t, ht, hid⟩

end TxPoWMiner

end Minima
