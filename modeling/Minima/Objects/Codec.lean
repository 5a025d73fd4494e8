import Minima.Mmr.Codec
import Minima.Objects.TxPoW

/-! # Which chain objects make the round trip

An object that was decoded is encoded again to be hashed, stored and sent. For every object of the
chain this file decides when that works. The one field that can go wrong is a state variable that
holds a number: its reader takes any scale and size, and its writer parses the text again inside the
limits of `MiniNumber`.

* **`StateVariable.Held`** — the text of a number inside the limits, where there is one; `Held` of an
  object asks this of all its state variables.
* **`Coin.transmits_iff`**, … — a decoded object makes the round trip exactly when it is `Held`.
* **`TxHeader.transmits`** — a header, which holds no state variables, always makes it. -/

namespace Minima

/-! ## State variables -/

namespace StateVariable

/-- The data of `writeDataStream`, behind port and type. -/
def writeData (type : Byte) (data : Text) : Result (List Byte) :=
  if type = STATETYPE_BOOL then pure [if data = MiniNumber.ascii "TRUE" then 1 else 0]
  else if type = STATETYPE_HEX then do
    let hexdata ← MiniData.ofHex data
    pure hexdata.writeDataStream
  else if type = STATETYPE_NUMBER then do
    let number ← MiniNumber.ofText data
    pure number.writeDataStream
  else if type = STATETYPE_STRING then pure (MiniData.mk data).writeDataStream
  else throwException "Invalid StateVariable type during write"

/-- The data of `readDataStream`. -/
def readData (type : Byte) : Reader Text :=
  if type = STATETYPE_BOOL then do
    let booleanValue ← Reader.readByte
    pure (if booleanValue ≠ 0 then MiniNumber.ascii "TRUE" else MiniNumber.ascii "FALSE")
  else if type = STATETYPE_HEX then do
    let hexdata ← MiniData.readDataStream
    pure hexdata.to0xString
  else if type = STATETYPE_NUMBER then do
    let number ← MiniNumber.readDataStream
    pure number.toText
  else if type = STATETYPE_STRING then MiniData.bytes <$> MiniData.readDataStream
  else Reader.throwing "Invalid StateVariable type during read"

theorem writeDataStream_eq (sv : StateVariable) :
    sv.writeDataStream = (fun body => sv.port :: sv.type :: body) <$> writeData sv.type sv.data := by
  unfold writeDataStream writeData
  split_ifs <;> simp only [map_eq_pure_bind, bind_assoc, pure_bind]

theorem readDataStream_eq : readDataStream = (do
    let port ← Reader.readByte
    let type ← Reader.readByte
    let data ← readData type
    return ⟨port, type, data⟩) := by
  unfold readDataStream readData
  congr 1
  funext port
  congr 1
  funext type
  split_ifs <;> simp only [map_eq_pure_bind, bind_assoc, pure_bind]

/-- A state variable as the reader makes it. -/
def Wire (sv : StateVariable) : Prop :=
  (sv.type = STATETYPE_BOOL ∧ (sv.data = MiniNumber.ascii "TRUE" ∨ sv.data = MiniNumber.ascii "FALSE")) ∨
  (sv.type = STATETYPE_HEX ∧
    ∃ d : MiniData, d.getLength ≤ MiniData.maxMiniDataLength ∧ sv.data = d.to0xString) ∨
  (sv.type = STATETYPE_NUMBER ∧ ∃ n : MiniNumber, sv.data = n.toText) ∨
  (sv.type = STATETYPE_STRING ∧ sv.data.length ≤ MiniData.maxMiniDataLength)

/-- **A number is the text of one inside the limits.** -/
def Held (sv : StateVariable) : Prop :=
  sv.type = STATETYPE_NUMBER → ∃ n : MiniNumber, n.Canonical ∧ sv.data = n.toText

theorem yields : Yields readDataStream Wire := by
  rw [readDataStream_eq]
  refine (Yields.any _).bind fun port _ => (Yields.any _).bind fun type _ => ?_
  have hdata : Yields (readData type) fun data => Wire ⟨port, type, data⟩ := by
    unfold readData
    split_ifs with hbool hhex hnumber hstring
    · refine (Yields.any _).map fun b _ => Or.inl ⟨hbool, ?_⟩
      split_ifs
      · exact Or.inl rfl
      · exact Or.inr rfl
    · exact MiniData.yields.map fun d hd => Or.inr (Or.inl ⟨hhex, d, hd, rfl⟩)
    · exact (Yields.any _).map fun n _ => Or.inr (Or.inr (Or.inl ⟨hnumber, n, rfl⟩))
    · exact MiniData.yields.map fun d hd => Or.inr (Or.inr (Or.inr ⟨hstring, hd⟩))
    · exact Yields.throwing _
  exact hdata.map fun data hw => hw

/-- The data of a state variable travels behind its port and its type. -/
theorem transmits_of_data {sv : StateVariable} {data : Text} {bs : List Byte}
    (hwrite : writeData sv.type sv.data = .ok bs) (hread : Reads (readData sv.type) bs data) :
    Transmits writeDataStream readDataStream sv { sv with data } := by
  refine ⟨sv.port :: sv.type :: bs, ?_, ?_⟩
  · rw [writeDataStream_eq, hwrite]
    rfl
  · rw [readDataStream_eq]
    exact (Reads.readByte sv.port).bind ((Reads.readByte sv.type).bind hread.then_pure)

/-- A number that is written arrives as a number inside the limits. -/
theorem reads_number {n : MiniNumber} (h : n.Canonical) :
    Reads (readData STATETYPE_NUMBER) n.writeDataStream n.toText :=
  (MiniNumber.reads h).then_pure

theorem writeData_number (data : Text) : writeData STATETYPE_NUMBER data =
    (fun n => n.writeDataStream) <$> MiniNumber.ofText data := by
  rw [map_eq_pure_bind]
  rfl

/-- **Everything but numbers arrives as it is.** -/
theorem transmits_of_ne {sv : StateVariable} (h : sv.Wire) (hne : sv.type ≠ STATETYPE_NUMBER) :
    Transmits writeDataStream readDataStream sv sv := by
  obtain ⟨port, type, data⟩ := sv
  rcases h with ⟨rfl, hdata⟩ | ⟨rfl, d, hd, rfl⟩ | ⟨htype, -⟩ | ⟨rfl, hlen⟩
  · rcases hdata with rfl | rfl
    · exact transmits_of_data rfl (Reads.readByte 1).then_pure
    · exact transmits_of_data rfl (Reads.readByte 0).then_pure
  · refine transmits_of_data ?_ (MiniData.reads hd).then_pure
    show (MiniData.ofHex d.to0xString >>= fun hexdata => pure hexdata.writeDataStream) = _
    rw [MiniData.ofHex_to0xString]
    rfl
  · exact absurd htype hne
  · exact transmits_of_data rfl (MiniData.reads (d := ⟨data⟩) hlen).map

/-- **A number inside the limits arrives as it is.** -/
theorem transmits {sv : StateVariable} (h : sv.Wire) (hheld : sv.Held) :
    Transmits writeDataStream readDataStream sv sv := by
  by_cases htype : sv.type = STATETYPE_NUMBER
  · obtain ⟨n, hn, hdata⟩ := hheld htype
    obtain ⟨port, type, data⟩ := sv
    simp only at htype hdata
    subst htype hdata
    obtain ⟨m, hm, hcan, hrat⟩ := MiniNumber.ofText_toText hn
    have hread := reads_number hcan
    rw [MiniNumber.toText_congr hrat] at hread
    refine transmits_of_data ?_ hread
    rw [writeData_number, hm]
    rfl
  · exact transmits_of_ne h htype

/-- **What is written arrives with a number inside the limits.** -/
theorem settles {sv : StateVariable} (h : sv.Wire) {bs : List Byte}
    (hwrite : sv.writeDataStream = .ok bs) :
    ∃ sv', Transmits writeDataStream readDataStream sv sv' ∧ sv'.Held := by
  by_cases htype : sv.type = STATETYPE_NUMBER
  · rw [writeDataStream_eq, htype, writeData_number, Result.map_eq_ok] at hwrite
    obtain ⟨body, hbody, -⟩ := hwrite
    obtain ⟨n, hn, rfl⟩ := Result.map_eq_ok.mp hbody
    have hcan := MiniNumber.ofText_canonical hn
    refine ⟨_, transmits_of_data (htype ▸ hbody) (htype ▸ reads_number hcan), fun _ => ⟨n, hcan, rfl⟩⟩
  · exact ⟨sv, transmits_of_ne h htype, fun h => absurd h htype⟩

theorem transmits_iff {sv : StateVariable} (h : sv.Wire) :
    Transmits writeDataStream readDataStream sv sv ↔ sv.Held :=
  Transmits.self_iff (transmits h) fun _ => settles h

end StateVariable

/-! ## Tokens and coins -/

/-- A stored number reads back. -/
theorem StoredNumber.reads (x : StoredNumber) : Reads StoredNumber.read x.val.writeDataStream x := by
  have hstored : x.val.stored = .ok x := by
    unfold MiniNumber.stored
    have hcopy := MiniNumber.copy_of_canonical x.property
    split
    · next y hy =>
      rw [hcopy, Except.ok.injEq] at hy
      exact congrArg Except.ok (Subtype.ext hy.symm)
    · next e he =>
      rw [hcopy] at he
      exact absurd he (by simp)
  have h := (MiniNumber.reads x.property).bind (f := fun v => Reader.lift v.stored) (Reads.lift hstored)
  rwa [List.append_nil] at h

namespace Token

/-- A token as the reader makes it. -/
structure Wire (t : Token) : Prop where
  coinID : t.coinID.getLength ≤ MiniData.maxHashLength
  name : t.tokenName.length ≤ MiniData.maxMiniDataLength
  script : t.tokenScript.length ≤ MiniData.maxMiniDataLength

theorem yields : Yields readDataStream Wire := by
  refine MiniData.yieldsHash.bind fun coinID hcoinID => MiniData.yields.bind fun script hscript => ?_
  refine (Yields.any _).bind fun scale _ => (Yields.any _).bind fun amount _ => ?_
  refine MiniData.yields.bind fun name hname => (Yields.any _).map fun created _ => ?_
  exact ⟨hcoinID, hname, hscript⟩

theorem transmits {t : Token} (h : t.Wire) : Transmits writeDataStream readDataStream t t := by
  refine ⟨t.coinID.writeDataStream ++ ((MiniData.mk t.tokenScript).writeDataStream ++
    (t.tokenScale.val.writeDataStream ++ (t.tokenMinimaAmount.val.writeDataStream ++
      ((MiniData.mk t.tokenName).writeDataStream ++ t.tokenCreated.val.writeDataStream)))), ?_, ?_⟩
  · rw [writeDataStream, MiniData.writeHashToStream_eq h.coinID]
    simp only [← List.append_assoc]
    rfl
  · refine (MiniData.readsHash h.coinID).bind ?_
    refine (MiniData.reads (d := ⟨t.tokenScript⟩) h.script).bind ?_
    refine (StoredNumber.reads _).bind ((StoredNumber.reads _).bind ?_)
    exact (MiniData.reads (d := ⟨t.tokenName⟩) h.name).bind (StoredNumber.reads _).then_pure

end Token

namespace Coin

/-- The token of `writeDataStream`, behind a byte that says whether there is one. -/
def writeToken : Option Token → Result (List Byte)
  | none => pure [0]
  | some t => do
    let bytes ← t.writeDataStream
    pure (1 :: bytes)

/-- The token of `readDataStream`. -/
def readToken : Reader (Option Token) := do
  let hasToken ← Reader.readByte
  if hasToken ≠ 0 then some <$> Token.readDataStream else pure none

theorem writeDataStream_eq (c : Coin) : c.writeDataStream = (do
    let coinid ← c.coinID.writeHashToStream
    let address ← c.address.writeHashToStream
    let tokenid ← c.tokenID.writeHashToStream
    let state ← writeAll StateVariable.writeDataStream c.state
    let token ← writeToken c.token
    return coinid ++ address ++ c.amount.val.writeDataStream ++ tokenid ++
      [if c.storeState then 1 else 0] ++ c.mmrEntryNumber.writeDataStream ++ [c.spent] ++
      c.blockCreated.val.writeDataStream ++ (MiniNumber.ofInt c.state.length).writeDataStream ++
      state ++ token) := by
  unfold writeDataStream writeToken
  cases c.token <;> simp only [bind_assoc, pure_bind]

theorem readDataStream_eq : readDataStream = (do
    let coinID ← MiniData.readHashFromStream
    let address ← MiniData.readHashFromStream
    let amount ← StoredNumber.read
    let tokenID ← MiniData.readHashFromStream
    let storeState ← Reader.readByte
    let mmrEntryNumber ← MMREntryNumber.readDataStream
    let spent ← Reader.readByte
    let blockCreated ← StoredNumber.read
    let len ← MiniNumber.getAsInt <$> MiniNumber.readDataStream
    let state ← Reader.readVector StateVariable.readDataStream len
    let token ← readToken
    return ⟨coinID, address, amount, tokenID, storeState ≠ 0, state, mmrEntryNumber, spent,
      blockCreated, token⟩) := by
  unfold readDataStream readToken
  simp only [bind_assoc]
  iterate 11 refine congrArg _ (funext fun _ => ?_)
  split_ifs <;> simp only [map_eq_pure_bind, bind_assoc, pure_bind]

/-- A coin as the reader makes it. -/
structure Wire (c : Coin) : Prop where
  coinID : c.coinID.getLength ≤ MiniData.maxHashLength
  address : c.address.getLength ≤ MiniData.maxHashLength
  tokenID : c.tokenID.getLength ≤ MiniData.maxHashLength
  number : c.mmrEntryNumber.Wire
  length : c.state.length < 2 ^ 31
  state : ∀ sv ∈ c.state, sv.Wire
  token : ∀ t ∈ c.token, t.Wire

/-- Every number in the state of the coin is inside the limits. -/
def Held (c : Coin) : Prop := ∀ sv ∈ c.state, sv.Held

theorem yields : Yields readDataStream Wire := by
  refine MiniData.yieldsHash.bind fun coinID hcoinID => MiniData.yieldsHash.bind fun address haddress => ?_
  refine (Yields.any _).bind fun amount _ => MiniData.yieldsHash.bind fun tokenID htokenID => ?_
  refine (Yields.any _).bind fun storeState _ => MMREntryNumber.yields.bind fun number hnumber => ?_
  refine (Yields.any _).bind fun spent _ => (Yields.any _).bind fun created _ => ?_
  refine Yields.readLength.bind fun len hlen => ?_
  refine (StateVariable.yields.readVector len).bind fun state hstate => ?_
  have hlength : state.length < 2 ^ 31 := by omega
  refine (Yields.any _).bind fun hasToken _ => ?_
  split_ifs
  · exact (Token.yields.map (Q := fun t => ∀ t' ∈ t, Token.Wire t') fun t ht => by simpa using ht).bind
      fun token htoken => Yields.pure ⟨hcoinID, haddress, htokenID, hnumber, hlength, hstate.2, htoken⟩
  · exact Yields.pure ⟨hcoinID, haddress, htokenID, hnumber, hlength, hstate.2, by simp⟩

/-- **A coin arrives with the state that arrives.** -/
theorem sends {c : Coin} (h : c.Wire) {state : List StateVariable}
    (hstate : List.Forall₂ (Transmits StateVariable.writeDataStream StateVariable.readDataStream)
      c.state state) :
    Transmits writeDataStream readDataStream c { c with state } := by
  obtain ⟨bs, hbs, hread⟩ := Transmits.vector hstate
  have hstore : decide ((if c.storeState then 1 else 0 : Byte) ≠ 0) = c.storeState := by
    cases c.storeState <;> rfl
  -- the token behind its presence byte
  have htoken : ∃ bytes, writeToken c.token = .ok bytes ∧ Reads readToken bytes c.token := by
    cases ht : c.token with
    | none => exact ⟨[0], rfl, (Reads.readByte 0).bind (Reads.pure none)⟩
    | some t =>
      obtain ⟨cs, hcs, hread⟩ := Token.transmits (h.token t ht)
      refine ⟨1 :: cs, ?_, Reads.readByte_bind 1 hread.map⟩
      rw [writeToken, hcs]
      rfl
  obtain ⟨ts, hts, hreadToken⟩ := htoken
  refine ⟨c.coinID.writeDataStream ++ (c.address.writeDataStream ++ (c.amount.val.writeDataStream ++
    (c.tokenID.writeDataStream ++ ([if c.storeState then 1 else 0] ++
      (c.mmrEntryNumber.writeDataStream ++ ([c.spent] ++ (c.blockCreated.val.writeDataStream ++
        ((MiniNumber.ofInt c.state.length).writeDataStream ++ (bs ++ ts))))))))), ?_, ?_⟩
  · rw [writeDataStream_eq, MiniData.writeHashToStream_eq h.coinID,
      MiniData.writeHashToStream_eq h.address, MiniData.writeHashToStream_eq h.tokenID, writeAll, hbs,
      hts]
    simp only [← List.append_assoc]
    rfl
  · rw [readDataStream_eq]
    refine (MiniData.readsHash h.coinID).bind ((MiniData.readsHash h.address).bind ?_)
    refine (StoredNumber.reads _).bind ((MiniData.readsHash h.tokenID).bind ?_)
    refine (Reads.readByte _).bind ((MMREntryNumber.reads h.number).bind ?_)
    refine (Reads.readByte _).bind ((StoredNumber.reads _).bind ?_)
    refine (MiniNumber.reads_count h.length).bind (hread.bind ?_)
    rw [hstore]
    exact hreadToken.then_pure

theorem transmits {c : Coin} (h : c.Wire) (hheld : c.Held) :
    Transmits writeDataStream readDataStream c c :=
  sends h (Transmits.forall₂_self.mpr fun sv hsv =>
    StateVariable.transmits (h.state sv hsv) (hheld sv hsv))

theorem settles {c : Coin} (h : c.Wire) {bs : List Byte} (hwrite : c.writeDataStream = .ok bs) :
    ∃ c', Transmits writeDataStream readDataStream c c' ∧ c'.Held := by
  simp only [writeDataStream_eq, Result.bind_eq_ok] at hwrite
  obtain ⟨_, -, _, -, _, -, ss, hss, -⟩ := hwrite
  obtain ⟨state, hstate, hheld⟩ := Transmits.settles_vector
    (fun sv hsv _ => StateVariable.settles (h.state sv hsv)) hss
  exact ⟨_, sends h hstate, hheld⟩

theorem transmits_iff {c : Coin} (h : c.Wire) :
    Transmits writeDataStream readDataStream c c ↔ c.Held :=
  Transmits.self_iff (transmits h) fun _ => settles h

end Coin

/-! ## Signatures, proofs and witnesses -/

namespace SignatureProof

/-- A signature proof as the reader makes it. -/
structure Wire (s : SignatureProof) : Prop where
  publicKey : s.publicKey.getLength ≤ MiniData.maxMiniDataLength
  signature : s.signature.getLength ≤ MiniData.maxMiniDataLength
  proof : s.proof.Wire

theorem yields : Yields readDataStream Wire :=
  MiniData.yields.bind fun _ hkey => MiniData.yields.bind fun _ hsig => MMRProof.yields.map fun _ hproof =>
    ⟨hkey, hsig, hproof⟩

theorem transmits {s : SignatureProof} (h : s.Wire) : Transmits writeDataStream readDataStream s s := by
  obtain ⟨bs, hbs, hread⟩ := MMRProof.transmits h.proof
  refine ⟨s.publicKey.writeDataStream ++ (s.signature.writeDataStream ++ bs), ?_, ?_⟩
  · rw [writeDataStream, hbs, ← List.append_assoc]
    rfl
  · exact (MiniData.reads h.publicKey).bind ((MiniData.reads h.signature).bind hread.then_pure)

end SignatureProof

namespace Signature

/-- A signature as the reader makes it. -/
structure Wire (s : Signature) : Prop where
  length : s.signatures.length < 2 ^ 31
  proofs : ∀ p ∈ s.signatures, p.Wire

theorem yields : Yields readDataStream Wire := by
  refine Yields.readLength.bind fun len hlen => ?_
  refine (SignatureProof.yields.readVector len).map fun proofs hproofs => ?_
  have hlength : proofs.length < 2 ^ 31 := by omega
  exact ⟨hlength, hproofs.2⟩

theorem transmits {s : Signature} (h : s.Wire) : Transmits writeDataStream readDataStream s s := by
  obtain ⟨bs, hbs, hread⟩ := Transmits.vector (Transmits.forall₂_self.mpr fun p hp =>
    SignatureProof.transmits (h.proofs p hp))
  refine ⟨(MiniNumber.ofInt s.signatures.length).writeDataStream ++ bs, ?_,
    (MiniNumber.reads_count h.length).bind hread.then_pure⟩
  rw [writeDataStream, Coin.writeAll, hbs]
  rfl

end Signature

namespace CoinProof

/-- A coin proof as the reader makes it. -/
structure Wire (p : CoinProof) : Prop where
  coin : p.coin.Wire
  proof : p.proof.Wire

def Held (p : CoinProof) : Prop := p.coin.Held

theorem yields : Yields readDataStream Wire :=
  Coin.yields.bind fun _ hcoin => MMRProof.yields.map fun _ hproof => ⟨hcoin, hproof⟩

theorem sends {p : CoinProof} (h : p.Wire) {coin : Coin}
    (hcoin : Transmits Coin.writeDataStream Coin.readDataStream p.coin coin) :
    Transmits writeDataStream readDataStream p { p with coin } := by
  obtain ⟨bs, hbs, hread⟩ := hcoin
  obtain ⟨cs, hcs, hread'⟩ := MMRProof.transmits h.proof
  refine ⟨bs ++ cs, ?_, hread.bind hread'.then_pure⟩
  rw [writeDataStream, hbs, hcs]
  rfl

theorem transmits {p : CoinProof} (h : p.Wire) (hheld : p.Held) :
    Transmits writeDataStream readDataStream p p := sends h (Coin.transmits h.coin hheld)

theorem settles {p : CoinProof} (h : p.Wire) {bs : List Byte} (hwrite : p.writeDataStream = .ok bs) :
    ∃ p', Transmits writeDataStream readDataStream p p' ∧ p'.Held := by
  obtain ⟨cs, hcs, -⟩ := Result.bind_eq_ok.mp hwrite
  obtain ⟨coin, hcoin, hheld⟩ := Coin.settles h.coin hcs
  exact ⟨_, sends h hcoin, hheld⟩

end CoinProof

namespace ScriptProof

/-- A script proof as the reader makes it: with the address that belongs to script and proof. -/
structure Wire (C : Crypto) (p : ScriptProof) : Prop where
  script : p.script.length ≤ MiniData.maxMiniDataLength
  proof : p.proof.Wire
  address : calculateAddress C p.script p.proof = .ok p.address

theorem yields (C : Crypto) : Yields (readDataStream C) (Wire C) := by
  refine MiniData.yields.bind fun script hscript => MMRProof.yields.bind fun proof hproof => ?_
  refine (Yields.lift fun address haddress => haddress).map fun address haddress => ?_
  exact ⟨hscript, hproof, haddress⟩

theorem transmits {C : Crypto} {p : ScriptProof} (h : p.Wire C) :
    Transmits writeDataStream (readDataStream C) p p := by
  obtain ⟨bs, hbs, hread⟩ := MMRProof.transmits h.proof
  refine ⟨(MiniData.mk p.script).writeDataStream ++ bs, ?_, ?_⟩
  · rw [writeDataStream, hbs]
    rfl
  · refine (MiniData.reads (d := ⟨p.script⟩) h.script).bind ?_
    have hlast := hread.bind (f := fun proof => do
      let address ← Reader.lift (calculateAddress C p.script proof)
      return (⟨p.script, proof, address⟩ : ScriptProof)) (Reads.lift h.address).then_pure
    rwa [List.append_nil] at hlast

end ScriptProof

namespace CoinProof

theorem yieldsFromStream : Yields readFromStream fun p => ∀ cp ∈ p, Wire cp := by
  intro s p rest hread
  unfold readFromStream at hread
  split at hread
  · next cp rest' hcp =>
    cases hread
    simpa using yields hcp
  · cases hread
    simp
  · cases hread

/-- A coin proof behind its pointer travels like the coin proof. -/
theorem transmitsFromStream {p p' : CoinProof} (h : Transmits writeDataStream readDataStream p p') :
    Transmits Witness.writeCoinProof readFromStream (some p) (some p') := by
  obtain ⟨bs, hbs, hread⟩ := h
  refine ⟨bs, hbs, fun rest => ?_⟩
  rw [readFromStream, hread rest]

end CoinProof

namespace Witness

/-- A witness as the reader makes it. -/
structure Wire (C : Crypto) (w : Witness) : Prop where
  signaturesLength : w.signatureProofs.length < 2 ^ 31
  coinProofsLength : w.coinProofs.length < 2 ^ 31
  scriptsLength : w.scriptProofs.length < 2 ^ 31
  signatures : ∀ s ∈ w.signatureProofs, s.Wire
  coinProofs : ∀ p ∈ w.coinProofs, ∀ cp ∈ p, CoinProof.Wire cp
  scripts : ∀ p ∈ w.scriptProofs, p.Wire C

/-- No coin proof is null, and the coins are held. -/
def Held (w : Witness) : Prop := ∀ p ∈ w.coinProofs, ∃ cp, p = some cp ∧ cp.Held

theorem yields (C : Crypto) : Yields (readDataStream C) (Wire C) := by
  refine Yields.readLength.bind fun slen hslen => ?_
  refine (Signature.yields.readVector slen).bind fun sigs hsigs => ?_
  refine Yields.readLength.bind fun clen hclen => ?_
  refine (CoinProof.yieldsFromStream.readVector clen).bind fun proofs hproofs => ?_
  refine Yields.readLength.bind fun plen hplen => ?_
  refine ((ScriptProof.yields C).readVector plen).map fun scripts hscripts => ?_
  have hsigsLength : sigs.length < 2 ^ 31 := by omega
  have hproofsLength : proofs.length < 2 ^ 31 := by omega
  have hscriptsLength : scripts.length < 2 ^ 31 := by omega
  exact ⟨hsigsLength, hproofsLength, hscriptsLength, hsigs.2, hproofs.2, hscripts.2⟩

/-- **A witness arrives with the coin proofs that arrive.** -/
theorem sends {C : Crypto} {w : Witness} (h : w.Wire C) {coinProofs : List (Option CoinProof)}
    (hproofs : List.Forall₂ (Transmits writeCoinProof CoinProof.readFromStream) w.coinProofs coinProofs) :
    Transmits writeDataStream (readDataStream C) w { w with coinProofs } := by
  obtain ⟨as, has, hreadSigs⟩ := Transmits.vector (Transmits.forall₂_self.mpr fun s hs =>
    Signature.transmits (h.signatures s hs))
  obtain ⟨bs, hbs, hreadProofs⟩ := Transmits.vector hproofs
  obtain ⟨cs, hcs, hreadScripts⟩ := Transmits.vector (Transmits.forall₂_self.mpr fun p hp =>
    ScriptProof.transmits (h.scripts p hp))
  refine ⟨(MiniNumber.ofInt w.signatureProofs.length).writeDataStream ++ (as ++
    ((MiniNumber.ofInt w.coinProofs.length).writeDataStream ++ (bs ++
      ((MiniNumber.ofInt w.scriptProofs.length).writeDataStream ++ cs)))), ?_, ?_⟩
  · rw [writeDataStream, Coin.writeAll, Coin.writeAll, Coin.writeAll, has, hbs, hcs]
    simp only [← List.append_assoc]
    rfl
  · refine (MiniNumber.reads_count h.signaturesLength).bind (hreadSigs.bind ?_)
    refine (MiniNumber.reads_count h.coinProofsLength).bind (hreadProofs.bind ?_)
    exact (MiniNumber.reads_count h.scriptsLength).bind hreadScripts.then_pure

theorem transmits {C : Crypto} {w : Witness} (h : w.Wire C) (hheld : w.Held) :
    Transmits writeDataStream (readDataStream C) w w := by
  refine sends h (Transmits.forall₂_self.mpr fun p hp => ?_)
  obtain ⟨cp, rfl, hcp⟩ := hheld p hp
  exact CoinProof.transmitsFromStream (CoinProof.transmits (h.coinProofs _ hp cp rfl) hcp)

theorem settles {C : Crypto} {w : Witness} (h : w.Wire C) {bs : List Byte}
    (hwrite : w.writeDataStream = .ok bs) :
    ∃ w', Transmits writeDataStream (readDataStream C) w w' ∧ w'.Held := by
  obtain ⟨_, -, hwrite⟩ := Result.bind_eq_ok.mp hwrite
  obtain ⟨cs, hcs, -⟩ := Result.bind_eq_ok.mp hwrite
  have hsettle : ∀ p ∈ w.coinProofs, ∀ bs, writeCoinProof p = .ok bs →
      ∃ q, Transmits writeCoinProof CoinProof.readFromStream p q ∧ ∃ cp, q = some cp ∧ cp.Held := by
    intro p hp bs hbs
    cases p with
    | none => exact absurd hbs (by simp [writeCoinProof])
    | some cp =>
      obtain ⟨cp', hcp', hheld⟩ := CoinProof.settles (h.coinProofs _ hp cp rfl) hbs
      exact ⟨some cp', CoinProof.transmitsFromStream hcp', cp', rfl, hheld⟩
  obtain ⟨coinProofs, hproofs, hheld⟩ := Transmits.settles_vector hsettle hcs
  exact ⟨_, sends h hproofs, hheld⟩

theorem transmits_iff {C : Crypto} {w : Witness} (h : w.Wire C) :
    Transmits writeDataStream (readDataStream C) w w ↔ w.Held :=
  Transmits.self_iff (transmits h) fun _ => settles h

end Witness

/-! ## Transactions -/

namespace Transaction

/-- A transaction as the reader makes it. -/
structure Wire (t : Transaction) : Prop where
  inputs : ∀ c ∈ t.inputs, c.Wire
  outputs : ∀ c ∈ t.outputs, c.Wire
  stateLength : t.state.length < 2 ^ 31
  state : ∀ sv ∈ t.state, sv.Wire
  linkHash : t.linkHash.getLength ≤ MiniData.maxHashLength

/-- Every number in the state of the transaction and of its coins is inside the limits. -/
structure Held (t : Transaction) : Prop where
  inputs : ∀ c ∈ t.inputs, c.Held
  outputs : ∀ c ∈ t.outputs, c.Held
  state : ∀ sv ∈ t.state, sv.Held

theorem yieldsCoins : Yields readCoins fun cs => ∀ c ∈ cs.val, c.Wire := by
  refine (Yields.any _).bind fun len _ => ?_
  intro s cs rest hread
  dsimp only at hread
  split at hread
  · next cs' rest' hcs =>
    cases hread
    exact (Coin.yields.readVector _ hcs).2
  · cases hread

theorem yields : Yields readDataStream Wire := by
  refine yieldsCoins.bind fun inputs hinputs => yieldsCoins.bind fun outputs houtputs => ?_
  refine Yields.readLength.bind fun slen hslen => ?_
  refine (StateVariable.yields.readVector slen).bind fun state hstate => ?_
  refine MiniData.yieldsHash.map fun linkHash hlink => ?_
  have hlength : state.length < 2 ^ 31 := by omega
  exact ⟨hinputs, houtputs, hlength, hstate.2, hlink⟩

/-- The coins of a transaction travel behind their number. -/
theorem transmitsCoins {cs ds : List Coin} (hlen : cs.length < 2 ^ 31)
    (h : List.Forall₂ (Transmits Coin.writeDataStream Coin.readDataStream) cs ds)
    (hlen' : ds.length < 2 ^ 31) :
    ∃ bytes, Crypto.concatAll (cs.map Coin.writeDataStream) = .ok bytes ∧
      Reads readCoins ((MiniNumber.ofInt cs.length).writeDataStream ++ bytes) ⟨ds, hlen'⟩ := by
  obtain ⟨bs, hbs, hread⟩ := Transmits.vector h
  have hcanonical : (MiniNumber.ofInt cs.length).Canonical :=
    MiniNumber.canonical_ofNat (by omega)
  have hint : (MiniNumber.ofInt cs.length).getAsInt = cs.length :=
    MiniNumber.getAsInt_ofInt (by omega) (by omega)
  refine ⟨bs, hbs, (MiniNumber.reads hcanonical).bind fun rest => ?_⟩
  have hrest := hread rest
  rw [← hint] at hrest
  split
  · next cs' rest' hcs =>
    rw [hrest] at hcs
    cases hcs
    rfl
  · next e rest' he =>
    rw [hrest] at he
    cases he

/-- **A transaction arrives with the coins and the state that arrive.** -/
theorem sends {t : Transaction} (h : t.Wire) {inputs outputs : List Coin} {state : List StateVariable}
    (hinputs : List.Forall₂ (Transmits Coin.writeDataStream Coin.readDataStream) t.inputs inputs)
    (houtputs : List.Forall₂ (Transmits Coin.writeDataStream Coin.readDataStream) t.outputs outputs)
    (hstate : List.Forall₂ (Transmits StateVariable.writeDataStream StateVariable.readDataStream)
      t.state state) :
    Transmits writeDataStream readDataStream t ⟨inputs, outputs, state, t.linkHash,
      hinputs.length_eq ▸ t.inputs_length, houtputs.length_eq ▸ t.outputs_length⟩ := by
  obtain ⟨as, has, hreadInputs⟩ := transmitsCoins t.inputs_length hinputs
    (hinputs.length_eq ▸ t.inputs_length)
  obtain ⟨bs, hbs, hreadOutputs⟩ := transmitsCoins t.outputs_length houtputs
    (houtputs.length_eq ▸ t.outputs_length)
  obtain ⟨cs, hcs, hreadState⟩ := Transmits.vector hstate
  refine ⟨(MiniNumber.ofInt t.inputs.length).writeDataStream ++ as ++
    ((MiniNumber.ofInt t.outputs.length).writeDataStream ++ bs ++
      ((MiniNumber.ofInt t.state.length).writeDataStream ++ (cs ++ t.linkHash.writeDataStream))), ?_, ?_⟩
  · rw [writeDataStream, Coin.writeAll, Coin.writeAll, Coin.writeAll, has, hbs, hcs,
      MiniData.writeHashToStream_eq h.linkHash]
    simp only [← List.append_assoc]
    rfl
  · refine hreadInputs.bind (hreadOutputs.bind ?_)
    refine (MiniNumber.reads_count h.stateLength).bind (hreadState.bind ?_)
    exact (MiniData.readsHash h.linkHash).then_pure

theorem transmits {t : Transaction} (h : t.Wire) (hheld : t.Held) :
    Transmits writeDataStream readDataStream t t :=
  sends h
    (Transmits.forall₂_self.mpr fun c hc => Coin.transmits (h.inputs c hc) (hheld.inputs c hc))
    (Transmits.forall₂_self.mpr fun c hc => Coin.transmits (h.outputs c hc) (hheld.outputs c hc))
    (Transmits.forall₂_self.mpr fun sv hsv =>
      StateVariable.transmits (h.state sv hsv) (hheld.state sv hsv))

theorem settles {t : Transaction} (h : t.Wire) {bs : List Byte} (hwrite : t.writeDataStream = .ok bs) :
    ∃ t', Transmits writeDataStream readDataStream t t' ∧ t'.Held := by
  simp only [writeDataStream, Result.bind_eq_ok] at hwrite
  obtain ⟨as, has, bs, hbs, cs, hcs, -⟩ := hwrite
  obtain ⟨inputs, hinputs, h1⟩ := Transmits.settles_vector (fun c hc _ => Coin.settles (h.inputs c hc)) has
  obtain ⟨outputs, houtputs, h2⟩ := Transmits.settles_vector (fun c hc _ => Coin.settles (h.outputs c hc)) hbs
  obtain ⟨state, hstate, h3⟩ := Transmits.settles_vector
    (fun sv hsv _ => StateVariable.settles (h.state sv hsv)) hcs
  exact ⟨_, sends h hinputs houtputs hstate, h1, h2, h3⟩

theorem transmits_iff {t : Transaction} (h : t.Wire) :
    Transmits writeDataStream readDataStream t t ↔ t.Held :=
  Transmits.self_iff (transmits h) fun _ => settles h

end Transaction

namespace TxBody

/-- A body as the reader makes it. -/
structure Wire (C : Crypto) (b : TxBody) : Prop where
  prng : b.prng.getLength ≤ MiniData.maxHashLength
  txnDifficulty : b.txnDifficulty.getLength ≤ MiniData.maxMiniDataLength
  transaction : b.transaction.Wire
  witness : b.witness.Wire C
  burnTransaction : b.burnTransaction.Wire
  burnWitness : b.burnWitness.Wire C
  length : b.txPowIDList.length < 2 ^ 31
  ids : ∀ id ∈ b.txPowIDList, id.getLength ≤ MiniData.maxHashLength

/-- The transactions and the witnesses of the body are held. -/
structure Held (b : TxBody) : Prop where
  transaction : b.transaction.Held
  witness : b.witness.Held
  burnTransaction : b.burnTransaction.Held
  burnWitness : b.burnWitness.Held

theorem yields (C : Crypto) : Yields (readDataStream C) (Wire C) := by
  refine MiniData.yieldsHash.bind fun prng hprng => MiniData.yields.bind fun difficulty hdifficulty => ?_
  refine Transaction.yields.bind fun txn htxn => (Witness.yields C).bind fun wit hwit => ?_
  refine Transaction.yields.bind fun burn hburn => (Witness.yields C).bind fun burnwit hburnwit => ?_
  refine Yields.readLength.bind fun len hlen => (MiniData.yieldsHash.readVector len).map fun ids hids => ?_
  have hlength : ids.length < 2 ^ 31 := by omega
  exact ⟨hprng, hdifficulty, htxn, hwit, hburn, hburnwit, hlength, hids.2⟩

/-- **A body arrives with the transactions and the witnesses that arrive.** -/
theorem sends {C : Crypto} {b : TxBody} (h : b.Wire C) {txn burn : Transaction} {wit burnwit : Witness}
    (htxn : Transmits Transaction.writeDataStream Transaction.readDataStream b.transaction txn)
    (hwit : Transmits Witness.writeDataStream (Witness.readDataStream C) b.witness wit)
    (hburn : Transmits Transaction.writeDataStream Transaction.readDataStream b.burnTransaction burn)
    (hburnwit : Transmits Witness.writeDataStream (Witness.readDataStream C) b.burnWitness burnwit) :
    Transmits writeDataStream (readDataStream C) b
      ⟨b.prng, b.txnDifficulty, txn, wit, burn, burnwit, b.txPowIDList⟩ := by
  obtain ⟨as, has, hreadTxn⟩ := htxn
  obtain ⟨bs, hbs, hreadWit⟩ := hwit
  obtain ⟨cs, hcs, hreadBurn⟩ := hburn
  obtain ⟨ds, hds, hreadBurnwit⟩ := hburnwit
  obtain ⟨es, hes, hreadIds⟩ := Transmits.vector (Transmits.forall₂_self.mpr fun id hid =>
    show Transmits MiniData.writeHashToStream MiniData.readHashFromStream id id from
      ⟨_, MiniData.writeHashToStream_eq (h.ids id hid), MiniData.readsHash (h.ids id hid)⟩)
  refine ⟨b.prng.writeDataStream ++ (b.txnDifficulty.writeDataStream ++ (as ++ (bs ++ (cs ++ (ds ++
    ((MiniNumber.ofInt b.txPowIDList.length).writeDataStream ++ es)))))), ?_, ?_⟩
  · rw [writeDataStream, MiniData.writeHashToStream_eq h.prng, has, hbs, hcs, hds, Coin.writeAll, hes]
    simp only [← List.append_assoc]
    rfl
  · refine (MiniData.readsHash h.prng).bind ((MiniData.reads h.txnDifficulty).bind ?_)
    refine hreadTxn.bind (hreadWit.bind (hreadBurn.bind (hreadBurnwit.bind ?_)))
    exact (MiniNumber.reads_count h.length).bind hreadIds.then_pure

theorem transmits {C : Crypto} {b : TxBody} (h : b.Wire C) (hheld : b.Held) :
    Transmits writeDataStream (readDataStream C) b b :=
  sends h (Transaction.transmits h.transaction hheld.transaction)
    (Witness.transmits h.witness hheld.witness)
    (Transaction.transmits h.burnTransaction hheld.burnTransaction)
    (Witness.transmits h.burnWitness hheld.burnWitness)

theorem settles {C : Crypto} {b : TxBody} (h : b.Wire C) {bs : List Byte}
    (hwrite : b.writeDataStream = .ok bs) :
    ∃ b', Transmits writeDataStream (readDataStream C) b b' ∧ b'.Held := by
  simp only [writeDataStream, Result.bind_eq_ok] at hwrite
  obtain ⟨_, -, as, has, bs, hbs, cs, hcs, ds, hds, -⟩ := hwrite
  obtain ⟨txn, htxn, h1⟩ := Transaction.settles h.transaction has
  obtain ⟨wit, hwit, h2⟩ := Witness.settles h.witness hbs
  obtain ⟨burn, hburn, h3⟩ := Transaction.settles h.burnTransaction hcs
  obtain ⟨burnwit, hburnwit, h4⟩ := Witness.settles h.burnWitness hds
  exact ⟨_, sends h htxn hwit hburn hburnwit, h1, h2, h3, h4⟩

end TxBody

/-! ## Headers -/

namespace Magic

/-- The limits of a block as the reader makes them. -/
structure Wire (m : Magic) : Prop where
  current : m.currentMinTxPoWWork.getLength ≤ MiniData.maxMiniDataLength
  desired : m.desiredMinTxPoWWork.getLength ≤ MiniData.maxMiniDataLength

theorem yields : Yields readDataStream Wire := by
  refine (Yields.any _).bind fun _ _ => (Yields.any _).bind fun _ _ => (Yields.any _).bind fun _ _ => ?_
  refine MiniData.yields.bind fun current hcurrent => ?_
  refine (Yields.any _).bind fun _ _ => (Yields.any _).bind fun _ _ => (Yields.any _).bind fun _ _ => ?_
  exact MiniData.yields.map fun desired hdesired => ⟨hcurrent, hdesired⟩

theorem reads {m : Magic} (h : m.Wire) : Reads readDataStream m.writeDataStream m := by
  unfold writeDataStream
  simp only [List.append_assoc]
  refine (StoredNumber.reads _).bind ((StoredNumber.reads _).bind ((StoredNumber.reads _).bind ?_))
  refine (MiniData.reads h.current).bind ?_
  refine (StoredNumber.reads _).bind ((StoredNumber.reads _).bind ((StoredNumber.reads _).bind ?_))
  exact (MiniData.reads h.desired).then_pure

end Magic

namespace TxHeader

/-- The list that runs stand for. -/
def expand (rs : List (ℕ × MiniData)) : List MiniData :=
  rs.flatMap fun run => List.replicate run.1 run.2

@[simp] theorem expand_cons (run : ℕ × MiniData) (rs : List (ℕ × MiniData)) :
    expand (run :: rs) = List.replicate run.1 run.2 ++ expand rs := List.flatMap_cons

/-- **The runs of a list** stand for it, none of them is empty, and they hold its entries. -/
theorem runs_spec (ds : List MiniData) :
    expand (runs ds) = ds ∧ ∀ run ∈ runs ds, 0 < run.1 ∧ run.1 ≤ ds.length ∧ run.2 ∈ ds := by
  induction ds with
  | nil => exact ⟨rfl, by simp [runs]⟩
  | cons d ds ih =>
    obtain ⟨hexpand, hruns⟩ := ih
    have htail : ∀ run ∈ runs ds, 0 < run.1 ∧ run.1 ≤ ds.length + 1 ∧ run.2 ∈ d :: ds := fun run hrun =>
      ⟨(hruns run hrun).1, by have := (hruns run hrun).2.1; omega, by simp [(hruns run hrun).2.2]⟩
    rw [runs, List.length_cons]
    split
    · next heq =>
      rw [heq] at hexpand
      subst hexpand
      exact ⟨rfl, by simp⟩
    · next count sparent rest heq =>
      rw [heq] at hexpand hruns htail
      rw [expand_cons] at hexpand
      split_ifs with hsame
      · rw [MiniData.isEqual_iff] at hsame
        subst hsame
        refine ⟨?_, fun run hrun => ?_⟩
        · rw [expand_cons, List.replicate_succ, List.cons_append, hexpand]
        · rcases List.mem_cons.mp hrun with rfl | hrun
          · have hcount := (hruns _ List.mem_cons_self).2.1
            exact ⟨Nat.succ_pos count, Nat.succ_le_succ hcount, List.mem_cons_self⟩
          · exact htail run (List.mem_cons_of_mem _ hrun)
      · refine ⟨?_, fun run hrun => ?_⟩
        · rw [expand_cons, expand_cons, hexpand]
          rfl
        · rcases List.mem_cons.mp hrun with rfl | hrun
          · exact ⟨Nat.one_pos, by omega, List.mem_cons_self⟩
          · exact htail run hrun

/-- **The decoder follows the runs**, given fuel for each of them. -/
theorem readRuns_expand (rs : List (ℕ × MiniData)) :
    ∀ (fuel : ℕ), rs.length ≤ fuel →
      (∀ run ∈ rs, 0 < run.1 ∧ run.1 < 256 ∧ run.2.getLength ≤ MiniData.maxHashLength) →
      ∃ bytes, Crypto.concatAll (rs.map writeRun) = .ok bytes ∧ rs.length ≤ bytes.length ∧
        Reads (readRuns fuel (expand rs).length) bytes (expand rs) := by
  induction rs with
  | nil =>
    intro fuel _ _
    refine ⟨[], rfl, le_rfl, ?_⟩
    cases fuel with
    | zero => exact Reads.pure []
    | succ fuel => exact Reads.pure []
  | cons run rs ih =>
    intro fuel hfuel hrs
    obtain ⟨hpos, hlt, hhash⟩ := hrs run List.mem_cons_self
    obtain ⟨fuel, rfl⟩ : ∃ f, fuel = f + 1 := ⟨fuel - 1, by rw [List.length_cons] at hfuel; omega⟩
    rw [List.length_cons] at hfuel
    obtain ⟨bs, hbs, hlen, hread⟩ := ih fuel (by omega) fun r hr => hrs r (List.mem_cons_of_mem _ hr)
    have hbyte : (UInt8.ofNat run.1).toNat = run.1 := by
      rw [UInt8.toNat_ofNat']
      omega
    refine ⟨UInt8.ofNat run.1 :: (run.2.writeDataStream ++ bs), ?_, ?_, ?_⟩
    · rw [List.map_cons, Crypto.concatAll, writeRun, MiniData.writeHashToStream_eq hhash, hbs]
      rfl
    · rw [List.length_cons, List.length_cons, List.length_append]
      omega
    · obtain ⟨todo, htodo⟩ : ∃ todo, (expand (run :: rs)).length = todo + 1 := by
        rw [expand_cons, List.length_append, List.length_replicate]
        exact ⟨run.1 + (expand rs).length - 1, by omega⟩
      have hrest : todo + 1 - run.1 = (expand rs).length := by
        rw [← htodo, expand_cons, List.length_append, List.length_replicate]
        omega
      rw [htodo, readRuns]
      refine (Reads.readByte _).bind ((MiniData.readsHash hhash).bind (Reads.guard ?_ ?_))
      · rw [hbyte, ← htodo, expand_cons, List.length_append, List.length_replicate]
        omega
      · rw [hbyte, hrest, expand_cons]
        exact hread.then_pure

/-- The super parents that the runs stand for. -/
theorem readSuperParents_eq {s rest : List Byte} {f : Fin cascadeLevels → MiniData}
    (h : readRuns s.length cascadeLevels s = (.ok (List.ofFn f), rest)) :
    readSuperParents s = (.ok f, rest) := by
  unfold readSuperParents
  split
  · next sups rest' hsups =>
    rw [h] at hsups
    cases hsups
    congr 2
    funext i
    simp
  · next e rest' he =>
    rw [h] at he
    cases he

theorem transmitsSuperParents {f : Fin cascadeLevels → MiniData}
    (h : ∀ i, (f i).getLength ≤ MiniData.maxHashLength) :
    ∃ bytes, Coin.writeAll writeRun (runs (List.ofFn f)) = .ok bytes ∧ Reads readSuperParents bytes f := by
  obtain ⟨hexpand, hruns⟩ := runs_spec (List.ofFn f)
  have hwire : ∀ run ∈ runs (List.ofFn f),
      0 < run.1 ∧ run.1 < 256 ∧ run.2.getLength ≤ MiniData.maxHashLength := by
    intro run hrun
    obtain ⟨hpos, hle, hmem⟩ := hruns run hrun
    obtain ⟨i, hi⟩ := List.mem_ofFn.mp hmem
    rw [List.length_ofFn] at hle
    unfold cascadeLevels at hle
    exact ⟨hpos, by omega, hi ▸ h i⟩
  obtain ⟨bs, hbs, hlen, -⟩ := readRuns_expand _ _ le_rfl hwire
  refine ⟨bs, hbs, fun rest => readSuperParents_eq ?_⟩
  -- the stream is long enough to be the fuel
  obtain ⟨bs', hbs', -, hread⟩ := readRuns_expand _ (bs ++ rest).length
    (by rw [List.length_append]; omega) hwire
  rw [hbs, Except.ok.injEq] at hbs'
  subst hbs'
  rw [hexpand, List.length_ofFn] at hread
  exact hread rest

theorem yieldsSuperParents : Yields readSuperParents
    fun f => ∀ i, (f i).getLength ≤ MiniData.maxHashLength := by
  have hruns : ∀ fuel todo, Yields (readRuns fuel todo)
      fun sups => ∀ d ∈ sups, d.getLength ≤ MiniData.maxHashLength := by
    intro fuel
    induction fuel with
    | zero =>
      intro todo
      cases todo with
      | zero => exact Yields.pure (by simp)
      | succ todo => exact Yields.throwing _
    | succ fuel ih =>
      intro todo
      cases todo with
      | zero => exact Yields.pure (by simp)
      | succ todo =>
        refine (Yields.any _).bind fun len _ => MiniData.yieldsHash.bind fun sup hsup => ?_
        refine Yields.guard fun _ => (ih _).map fun rest hrest d hd => ?_
        rcases List.mem_append.mp hd with hd | hd
        · rwa [List.eq_of_mem_replicate hd]
        · exact hrest d hd
  intro s f rest hread
  unfold readSuperParents at hread
  split at hread
  · next sups rest' hsups =>
    cases hread
    exact fun i => hruns _ _ hsups _ (List.get_mem _ _)
  · cases hread

/-- A header as the reader makes it. -/
structure Wire (h : TxHeader) : Prop where
  chainID : h.chainID.getLength ≤ MiniData.maxMiniDataLength
  blockDifficulty : h.blockDifficulty.getLength ≤ MiniData.maxMiniDataLength
  superParents : ∀ i, (h.superParents i).getLength ≤ MiniData.maxHashLength
  mmrRoot : h.mmrRoot.getLength ≤ MiniData.maxHashLength
  magic : h.magic.Wire
  customHash : h.customHash.getLength ≤ MiniData.maxHashLength
  txBodyHash : h.txBodyHash.getLength ≤ MiniData.maxHashLength

theorem yields : Yields readDataStream Wire := by
  refine (Yields.any _).bind fun nonce _ => MiniData.yields.bind fun chainID hchain => ?_
  refine (Yields.any _).bind fun time _ => (Yields.any _).bind fun number _ => ?_
  refine MiniData.yields.bind fun difficulty hdifficulty => yieldsSuperParents.bind fun supers hsupers => ?_
  refine MiniData.yieldsHash.bind fun root hroot => (Yields.any _).bind fun total _ => ?_
  refine Magic.yields.bind fun magic hmagic => MiniData.yieldsHash.bind fun custom hcustom => ?_
  exact MiniData.yieldsHash.map fun body hbody =>
    ⟨hchain, hdifficulty, hsupers, hroot, hmagic, hcustom, hbody⟩

/-- **A header always makes the round trip.** -/
theorem transmits {h : TxHeader} (hw : h.Wire) : Transmits writeDataStream readDataStream h h := by
  obtain ⟨bs, hbs, hread⟩ := transmitsSuperParents hw.superParents
  refine ⟨h.nonce.val.writeDataStream ++ (h.chainID.writeDataStream ++
    (h.timeMilli.val.writeDataStream ++ (h.blockNumber.val.writeDataStream ++
      (h.blockDifficulty.writeDataStream ++ (bs ++ (h.mmrRoot.writeDataStream ++
        (h.mmrTotal.val.writeDataStream ++ (h.magic.writeDataStream ++
          (h.customHash.writeDataStream ++ h.txBodyHash.writeDataStream))))))))), ?_, ?_⟩
  · rw [writeDataStream, hbs, MiniData.writeHashToStream_eq hw.mmrRoot,
      MiniData.writeHashToStream_eq hw.customHash, MiniData.writeHashToStream_eq hw.txBodyHash]
    simp only [← List.append_assoc]
    rfl
  · refine (StoredNumber.reads _).bind ((MiniData.reads hw.chainID).bind ?_)
    refine (StoredNumber.reads _).bind ((StoredNumber.reads _).bind ?_)
    refine (MiniData.reads hw.blockDifficulty).bind (hread.bind ?_)
    refine (MiniData.readsHash hw.mmrRoot).bind ((StoredNumber.reads _).bind ?_)
    refine (Magic.reads hw.magic).bind ((MiniData.readsHash hw.customHash).bind ?_)
    exact (MiniData.readsHash hw.txBodyHash).then_pure

end TxHeader

end Minima
