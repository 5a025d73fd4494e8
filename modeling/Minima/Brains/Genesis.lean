import Minima.Brains.Branch

/-! # The first block

A network starts with one coin, `GenesisCoin`, of a billion Minima behind the script `RETURN TRUE`. It is
the only leaf of `GenesisMMR`. The first block has number one and spends it to an address.

* **`Main.doGenesis`** — the root of the first tree.
* **`Main.begins_of_doGenesis`** — a branch can begin with it. -/

namespace Minima

open MountainRange SpendLedger TxBlock TxPoWGenerator

/-! ## The source -/

/-- `Address::getTrueAddress`: its script. -/
def Address.trueScript : Text := MiniNumber.ascii "RETURN TRUE"

/-- `ScriptProof` of a script: the script is the only leaf of an MMR. -/
def ScriptProof.ofScript (C : Crypto) (zScript : Text) : Result ScriptProof := do
  let scriptdata ← MMRData.createMMRDataLeafNode C (.ok (MiniData.mk zScript).writeDataStream) .zero
  let (mmr, entry) ← MMR.addEntry C .none .new scriptdata
  let proof ← mmr.getProof C .none entry.entryNumber
  let address ← calculateAddress C zScript proof
  return ⟨zScript, proof, address⟩

/-- A coin as its constructor makes it. -/
def Coin.ofAmount (zCoinID zAddress : MiniData) (zAmount : StoredNumber) (zTokenID : MiniData) : Coin where
  coinID := zCoinID
  address := zAddress
  amount := zAmount
  tokenID := zTokenID
  storeState := true
  state := []
  mmrEntryNumber := .zero
  spent := 0
  blockCreated := ⟨.zero, MiniNumber.canonical_zero⟩
  token := none

theorem Magic.wire_defaults : Magic.defaults.Wire := ⟨by decide, by decide⟩

namespace Main

/-- `GENESIS_COINID`: the text `SPARTACUSLOVESMINIMA`. -/
def GENESIS_COINID : MiniData := ⟨MiniNumber.ascii "SPARTACUSLOVESMINIMA"⟩

/-- A billion in a member. -/
def billionStored : StoredNumber := ⟨.billion, by decide +kernel⟩

section Genesis

variable (C : Crypto) (weightText : ℕ → Text)

/-- `GenesisCoin`. -/
def genesisCoin : Result Coin := do
  let trueAddress ← ScriptProof.ofScript C Address.trueScript
  return Coin.ofAmount GENESIS_COINID trueAddress.address billionStored Token.TOKENID_MINIMA

/-- `GenesisMMR`. -/
def genesisMMR : Result MMR := do
  let gencoin ← genesisCoin C
  let mmrdata ← MMRData.createMMRDataLeafNode C gencoin.writeDataStream gencoin.amount.val
  let (mmr, _) ← MMR.addEntry C .none .new mmrdata
  mmr.finalizeSet C

/-- The output of the first block: the billion goes to an address. -/
def genesisOutput (zGenesisAddress : MiniData) : Coin :=
  Coin.ofAmount Coin.COINID_OUTPUT zGenesisAddress billionStored Token.TOKENID_MINIMA

/-- The transaction of the first block. -/
def genesisTransaction (gencoin : Coin) (zGenesisAddress : MiniData) : Transaction where
  inputs := [gencoin]
  outputs := [genesisOutput zGenesisAddress]
  state := []
  linkHash := MiniData.zeroTxPowID
  inputs_length := by simp
  outputs_length := by simp

/-- An empty transaction. -/
def emptyTransaction : Transaction :=
  ⟨[], [], [], MiniData.zeroTxPowID, Transaction.noCoins_length, Transaction.noCoins_length⟩

/-- The body of the first block, with random data in it. -/
def genesisBody (prng zGenesisAddress : MiniData) : Result TxBody := do
  let genesismmr ← genesisMMR C
  let gencoin ← genesisCoin C
  let proof ← genesismmr.getProofToPeak .none .zero
  let truescript ← ScriptProof.ofScript C Address.trueScript
  return {
    prng
    txnDifficulty := Crypto.MAX_HASH
    transaction := genesisTransaction gencoin zGenesisAddress
    witness := ⟨[], [some ⟨gencoin, proof⟩], [truescript]⟩
    burnTransaction := emptyTransaction
    burnWitness := Witness.empty
    txPowIDList := [] }

/-- The header of the first block, before it has a root. -/
def genesisHeader (now : StoredNumber) (body : TxBody) : TxHeader where
  nonce := TxPoWGenerator.storedNat 256
  chainID := TxPoWChecker.currentNetwork
  timeMilli := now
  blockNumber := TxPoW.oneStored
  blockDifficulty := Crypto.MAX_HASH
  superParents := fun _ => ⟨[0]⟩
  mmrRoot := ⟨[0]⟩
  mmrTotal := ⟨.zero, MiniNumber.canonical_zero⟩
  magic := Magic.defaults
  customHash := MiniData.zeroTxPowID
  txBodyHash := C.hashObject body.writeDataStream

/-- A `TxPoW` before anything is derived from it. -/
def freshTxPoW (header : TxHeader) (body : TxBody) : TxPoW where
  header := header
  body := some body
  txPoWID := ⟨[]⟩
  blockWeight := MiniNumber.ascii "0"
  isBlockPOW := false
  isTxnPOW := false
  superBlock := TxPoW.clampSuperBlock 0
  txPoWSize := 0

/-- `GenesisTxPoW`: its root is that of the MMR which a copy of it makes on `GenesisMMR`. -/
def genesisTxPoW (prng : MiniData) (now : StoredNumber) (zGenesisAddress : MiniData) : Result TxPoW := do
  let genesismmr ← genesisMMR C
  let body ← genesisBody C prng zGenesisAddress
  let header := genesisHeader C now body
  match (freshTxPoW header body).deepCopy C weightText with
  | none => undefinedBehaviour "null TxPoW"
  | some copy => do
    let txblock ← TxBlock.make C weightText false none genesismmr [] copy []
    let node ← TxPoWTreeNode.constructMMR C txblock
    match ← node.1.getRoot C with
    | none => undefinedBehaviour "null MMRData"
    | some root => do
      let header := { header with mmrRoot := root.data, mmrTotal := ⟨root.value, root.canonical⟩ }
      let t ← TxPoW.calculateTXPOWID C weightText header (some body)
      return { t with isBlockPOW := true, isTxnPOW := true }

/-- **`doGenesis`**, with an address for the billion: the root of the tree, and its MMR. -/
def doGenesis (prng : MiniData) (now : StoredNumber) (address : MiniData) : Result (TreeNode × MMR) := do
  let genesis ← genesisTxPoW C weightText prng now address
  let gmmr ← genesisMMR C
  let txgenesisblock ← TxBlock.make C weightText false none gmmr [] genesis []
  let root ← TxPoWTreeNode.constructMMR C txgenesisblock
  return (⟨txgenesisblock.txpow, []⟩, root.1)

end Genesis

/-! ## The first ledger -/

section Ledger

variable {C : Crypto} {weightText : ℕ → Text} {prng address : MiniData} {now : StoredNumber}

/-- A `TxPoW` that is copied is written, and its transaction is. -/
theorem written_of_deepCopy {t copy : TxPoW} {b : TxBody} (hbody : t.body = some b)
    (h : t.deepCopy C weightText = some copy) :
    (∃ bytes, t.header.writeDataStream = .ok bytes) ∧ ∃ bytes, b.transaction.writeDataStream = .ok bytes := by
  unfold TxPoW.deepCopy at h
  cases hwrite : t.writeDataStream with
  | error e =>
    rw [hwrite] at h
    cases h
  | ok bytes =>
    rw [TxPoW.writeDataStream, TxPoW.encode, hbody] at hwrite
    simp only [TxPoW.writeBody, TxBody.writeDataStream, Result.bind_eq_ok] at hwrite
    obtain ⟨hs, hhs, _, ⟨_, ⟨_, -, ts, hts, -⟩, -⟩, -⟩ := hwrite
    exact ⟨⟨hs, hhs⟩, ts, hts⟩

/-- The coins of a transaction that is written. -/
theorem written_of_transaction {gencoin : Coin} {bytes : List Byte}
    (h : (genesisTransaction gencoin address).writeDataStream = .ok bytes) :
    Written gencoin ∧ Written (genesisOutput address) := by
  simp only [Transaction.writeDataStream, genesisTransaction, Result.bind_eq_ok] at h
  obtain ⟨_, hinputs, _, houtputs, -⟩ := h
  simp only [Coin.writeAll, List.map_cons, Crypto.concatAll, Result.bind_eq_ok] at hinputs houtputs
  obtain ⟨gs, hgs, -⟩ := hinputs
  obtain ⟨os, hos, -⟩ := houtputs
  exact ⟨⟨gs, hgs⟩, os, hos⟩

/-- A new coin that is written can be read. -/
theorem wire_ofAmount {coinID address tokenID : MiniData} {amount : StoredNumber}
    (h : Written (Coin.ofAmount coinID address amount tokenID)) :
    (Coin.ofAmount coinID address amount tokenID).Wire := by
  obtain ⟨hid, htoken, -⟩ := h.ids
  obtain ⟨bytes, h⟩ := h
  rw [Coin.writeDataStream_eq] at h
  simp only [Result.bind_eq_ok] at h
  obtain ⟨_, -, _, haddress, -⟩ := h
  exact ⟨hid, length_of_writeHashToStream haddress, htoken, Coin.wire_ofNat (n := 0) (by norm_num), by simp [Coin.ofAmount],
    by simp [Coin.ofAmount], by simp [Coin.ofAmount]⟩

theorem genesisTransaction_wire {gencoin : Coin} (hgencoin : gencoin.Wire) (houtput : (genesisOutput address).Wire) :
    (genesisTransaction gencoin address).Wire :=
  ⟨by simpa [genesisTransaction] using hgencoin, by simpa [genesisTransaction] using houtput,
    by simp [genesisTransaction], by simp [genesisTransaction],
    (by decide : MiniData.zeroTxPowID.getLength ≤ MiniData.maxHashLength)⟩

theorem emptyTransaction_wire : emptyTransaction.Wire :=
  ⟨by simp [emptyTransaction], by simp [emptyTransaction], by simp [emptyTransaction], by simp [emptyTransaction],
    by decide⟩

theorem genesisCoin_eq {gencoin : Coin} (h : genesisCoin C = .ok gencoin) :
    ∃ trueAddress, gencoin = Coin.ofAmount GENESIS_COINID trueAddress billionStored Token.TOKENID_MINIMA := by
  obtain ⟨truescript, -, h⟩ := Result.bind_eq_ok.mp h
  exact ⟨truescript.address, (Except.ok.inj h).symm⟩

@[simp] theorem value_ofAmount_billion (coinID address tokenID : MiniData) :
    (Coin.ofAmount coinID address billionStored tokenID).value = 10 ^ 9 := MiniNumber.toRat_billion

/-- **`GenesisMMR`** holds the genesis coin. -/
theorem genesisMMR_spec {g : MMR} {gencoin : Coin} (hcoin : genesisCoin C = .ok gencoin)
    (hwritten : Written gencoin) (hshort : ShortHashes C g) (h : genesisMMR C = .ok g) :
    ∃ f d, MMR.SumChain C [⟨g, 1, f⟩] ∧ MMR.Sealed C ⟨g, 1, f⟩ ∧ g.finalized = true ∧ g.blockTime = .zero ∧
      Coin.Holds C [⟨gencoin.face, false⟩] ⟨g, 1, f⟩ ∧
        MMRData.createMMRDataLeafNode C gencoin.writeDataStream gencoin.amount.val = .ok d ∧
          f 0 0 = d.content := by
  unfold genesisMMR at h
  simp only [hcoin, Result.ok_bind, Result.bind_eq_ok] at h
  obtain ⟨d, hd, ⟨m, x⟩, hadd, hfinal⟩ := h
  have hall : MMR.addAll C .none .new [d] = .ok m := by
    rw [MMR.addAll, hadd]
    rfl
  have hnew : MMR.Sound C MMRData.content (MMR.SumJoins C) ⟨.new, 0, fun _ _ => default⟩ := MMR.sound_new _
  have hwalks : MMR.new.Walks (A := MiniData × ℚ) .none [] := rfl
  obtain ⟨f, hextends, htracks, hjoined, hstored, -, hleaf⟩ := MMR.addAll_sound MMRData.content_clone
    MMR.sumJoins_of_create [d] .new 0 _ m hnew.tracks hnew.joined rfl MiniNumber.isNonneg_zero hwalks hall
  have hlabel : f 0 0 = d.content := hleaf 0 Nat.one_pos
  have hsound : MMR.Sound C MMRData.content (MMR.SumJoins C) ⟨m, 1, f⟩ :=
    ⟨htracks, hjoined, hextends.blockTime ▸ MiniNumber.isNonneg_zero, fun hf => by
      rw [hextends.finalized] at hf
      cases hf⟩
  obtain ⟨hsound', hfinalized, hentries, htime, -⟩ := hsound.finalizeSet MMRData.content_clone hfinal
  -- the only leaf is the coin
  obtain ⟨trueAddress, rfl⟩ := genesisCoin_eq hcoin
  have hwire := wire_ofAmount hwritten
  obtain ⟨bytes, hwrite⟩ := hwritten
  set gencoin := Coin.ofAmount GENESIS_COINID trueAddress billionStored Token.TOKENID_MINIMA with hgencoin
  have hholds : Coin.Holds C [⟨gencoin.face, false⟩] ⟨g, 1, f⟩ := by
    refine ⟨rfl, fun k e he => ?_⟩
    obtain ⟨rfl, rfl⟩ : k = 0 ∧ e = ⟨gencoin.face, false⟩ := by
      cases k with
      | zero => exact ⟨rfl, (Option.some.inj he).symm⟩
      | succ k => simp at he
    refine ⟨gencoin, ⟨hwire, rfl, ?_⟩, rfl, rfl, ?_⟩
    · rw [hgencoin, value_ofAmount_billion]
      norm_num
    · show Coin.LeafOf C gencoin (f 0 0)
      rw [hlabel]
      exact Coin.leafOf_create hwrite hd
  have hstored' : ∀ r k, Complete 1 r k → g.Has r k := by
    intro r k hk
    rcases hstored r k hk with hzero | hhas
    · unfold Complete at hzero
      simp at hzero
    · rwa [MMR.Has, ← hentries]
  have hdata : ∀ x ∈ g.finalizedPeaks, ∃ d, x.getMMRData = .ok d := by
    intro x hx
    obtain ⟨_, _, -, hcarry⟩ := (hsound'.final hfinalized).1.isPeak hx
    obtain ⟨d, hd, -⟩ := hcarry.getMMRData
    exact ⟨d, hd⟩
  have hseal := sealed_of_holds hsound' hholds (fun r k hk => Or.inl (hstored' r k hk)) hshort
    (MMR.getRoot_of_finalizeSet hfinal hdata) (by
      simp only [SpendLedger.total, List.map_cons, List.map_nil, List.sum_cons, List.sum_nil, Coin.face_value,
        hgencoin, value_ofAmount_billion]
      norm_num)
  exact ⟨f, d, ⟨hsound', trivial, trivial⟩, hseal, hfinalized, htime.trans hextends.blockTime, hholds, hd,
    hlabel⟩

/-- The header of the first block, with its root. -/
def rootedHeader (C : Crypto) (now : StoredNumber) (body : TxBody) (root : MiniData) (total : StoredNumber) :
    TxHeader := { genesisHeader C now body with mmrRoot := root, mmrTotal := total }

theorem rootedHeader_wire {body : TxBody} {root : MiniData} {total : StoredNumber} {bytes : List Byte}
    (h : (rootedHeader C now body root total).writeDataStream = .ok bytes) :
    (rootedHeader C now body root total).Wire := by
  simp only [TxHeader.writeDataStream, Result.bind_eq_ok] at h
  obtain ⟨_, -, _, hroot, _, -, _, hbody, -⟩ := h
  exact ⟨by show (1 : ℕ) ≤ _; decide, by show (32 : ℕ) ≤ _; decide, fun _ => by show (1 : ℕ) ≤ _; decide,
    length_of_writeHashToStream hroot, Magic.wire_defaults, by show MiniData.zeroTxPowID.getLength ≤ _; decide,
    length_of_writeHashToStream hbody⟩

/-- The `TxPoW` of the first block. -/
theorem genesisTxPoW_spec {genesis : TxPoW} (h : genesisTxPoW C weightText prng now address = .ok genesis) :
    ∃ body root total, genesisBody C prng address = .ok body ∧ genesis.body = some body ∧
      genesis.header = rootedHeader C now body root total := by
  unfold genesisTxPoW at h
  simp only [Result.bind_eq_ok] at h
  obtain ⟨g, -, body, hbody, h⟩ := h
  split at h
  · cases h
  · simp only [Result.bind_eq_ok] at h
    obtain ⟨_, -, _, -, root, -, h⟩ := h
    split at h
    · cases h
    · simp only [Result.bind_eq_ok, Result.pure_eq_ok] at h
      obtain ⟨t, ht, rfl⟩ := h
      obtain ⟨hheader, hbody', -⟩ := TxPoW.calculateTXPOWID_eq_ok ht
      exact ⟨body, _, _, hbody, hbody', hheader⟩

/-- What `doGenesis` begins with: the genesis coin, which is spent, and the billion of the first block. -/
def genesisLedger (gencoin output : Coin) : List (Entry Coin) := 
  [⟨gencoin.face, true⟩, ⟨output, false⟩]

theorem total_genesisLedger (gencoin output : Coin) :
    SpendLedger.total Coin.value (genesisLedger gencoin output) = output.value := by
  simp [SpendLedger.total, genesisLedger]

/-- **A branch can begin with the first block.** -/
theorem begins_of_doGenesis {n : TreeNode} {m g : MMR} (h : doGenesis C weightText prng now address = .ok (n, m))
    (hg : genesisMMR C = .ok g) (hshortg : ShortHashes C g) (hshort : ShortHashes C m) :
    ∃ gencoin output, Begins C (genesisLedger gencoin output) n m ∧ genesisCoin C = .ok gencoin ∧
      output.value = 10 ^ 9 ∧ output.coinID =
        calculateCoinID C ((genesisTransaction gencoin address).calculateTransactionID C) 0 := by
  unfold doGenesis at h
  simp only [hg, Result.ok_bind, Result.bind_eq_ok, Result.pure_eq_ok, Prod.mk.injEq] at h
  obtain ⟨genesis, hgenesis, b, hmake, ⟨m', coins⟩, hbuilt, rfl, rfl⟩ := h
  obtain ⟨body, root, rootTotal, hbody, hgbody, hheader⟩ := genesisTxPoW_spec hgenesis
  have hlisted : body.txPowIDList = [] := by
    unfold genesisBody at hbody
    simp only [Result.bind_eq_ok, Result.pure_eq_ok] at hbody
    obtain ⟨_, -, _, -, _, -, _, -, rfl⟩ := hbody
    rfl
  have hlists : Lists genesis [] := ⟨by simp [TxPoW.getBlockTransactions, hgbody, hlisted], by simp⟩
  obtain ⟨copy, _, _, _, hcopy, -⟩ := make_eq_ok hlists hmake
  obtain ⟨⟨hs, hhs⟩, ts, hts⟩ := written_of_deepCopy hgbody hcopy
  have hcopied := TxPoW.deepCopy_header (hheader ▸ rootedHeader_wire (hheader ▸ hhs)) hcopy
  unfold genesisBody at hbody
  simp only [hg, Result.ok_bind, Result.bind_eq_ok, Result.pure_eq_ok] at hbody
  obtain ⟨gencoin, hcoin, proof, hproof, truescript, hscript, rfl⟩ := hbody
  obtain ⟨hwritten, hwritten'⟩ := written_of_transaction hts
  obtain ⟨f, d, hchain, hseal, hfinal, htime, hholds, hd, hlabel⟩ := genesisMMR_spec hcoin hwritten hshortg hg
  have hT : (⟨g, 1, f⟩ : Snapshot (MiniData × ℚ)).mmr.blockTime.add .one = .ok .one := by
    show g.blockTime.add .one = .ok .one
    rw [htime]
    decide +kernel
  -- the coin proof of the genesis coin is one for the only leaf
  have hshown : ∃ k, Coin.Shown C ⟨g, 1, f⟩ [] [⟨gencoin.face, false⟩] k ⟨gencoin, proof⟩ := by
    obtain ⟨trueAddress, hgencoin⟩ := genesisCoin_eq hcoin
    obtain ⟨cs, hproof', -⟩ := MMR.Chain.getProofToPeak MMRData.content_clone hchain 0
    obtain rfl : proof = ⟨g.blockTime, cs⟩ := Except.ok.inj (hproof.symm.trans hproof')
    refine ⟨0, ?_, ?_, rfl, ?_, ?_, le_rfl, ?_⟩
    · rw [hgencoin] at hwritten ⊢
      exact wire_ofAmount hwritten
    · rw [hgencoin]
      rfl
    · rw [hgencoin, value_ofAmount_billion]
      norm_num
    · intro d' hd'
      obtain rfl : d = d' := Except.ok.inj (hd.symm.trans hd')
      exact hlabel
    · intro i c hnode hpeak
      -- the only leaf is a peak
      rcases Nat.eq_zero_or_pos i with rfl | hi
      · exact absurd (by decide : IsPeak 1 (0 : ℕ) (0 / 2 ^ 0)) hpeak
      · have hpow := Nat.one_lt_two_pow hi.ne'
        unfold Complete at hnode
        rw [Nat.div_eq_of_lt hpow] at hnode
        exact absurd hnode (Nat.not_lt_zero _)
  have hready : ∀ u ∈ [genesis], ∀ tw ∈ pairsOf u, Ready C ⟨g, 1, f⟩ [] [⟨gencoin.face, false⟩] tw := by
    intro u hu tw htw
    obtain rfl := List.mem_singleton.mp hu
    rw [pairsOf, hgbody] at htw
    simp only [List.mem_cons, List.not_mem_nil, or_false] at htw
    rcases htw with rfl | rfl
    · obtain ⟨k, hk⟩ := hshown
      refine ⟨genesisTransaction_wire hk.wire (wire_ofAmount hwritten'), ?_, ?_⟩
      · simp only [genesisTransaction, genesisOutput, List.mem_singleton, forall_eq, value_ofAmount_billion]
        norm_num
      · intro p hp _
        simp only [List.mem_singleton, Option.some.injEq] at hp
        exact hp ▸ ⟨k, hk⟩
    · exact ⟨emptyTransaction_wire, by simp [emptyTransaction], by simp [AllShown, Witness.empty]⟩
  obtain ⟨parts, s, hmade, hparts, hcopy', hpeaks, hspentCoins, hnewCoins⟩ :=
    make_spec hchain hfinal hholds hlists hready hT hmake (written_of_constructMMR hbuilt)
  have hpairs : ([genesis].flatMap pairsOf) = [(genesisTransaction gencoin address,
      ⟨[], [some ⟨gencoin, proof⟩], [truescript]⟩), (emptyTransaction, Witness.empty)] := by
    simp [pairsOf, hgbody]
  rw [hpairs] at hparts
  obtain ⟨p, parts', hp, hparts', rfl⟩ := List.forall₂_cons_left_iff.mp hparts
  obtain ⟨q, parts'', hq, hparts'', rfl⟩ := List.forall₂_cons_left_iff.mp hparts'
  obtain rfl := List.forall₂_nil_left_iff.mp hparts''
  obtain ⟨output, hvalue, hid, happly⟩ : ∃ output : Coin, output.value = 10 ^ 9 ∧ output.coinID =
      calculateCoinID C ((genesisTransaction gencoin address).calculateTransactionID C) 0 ∧
        apply [⟨gencoin.face, false⟩] [p, q] = genesisLedger gencoin output := by
    obtain ⟨k, ks, hk, hks, hpspends⟩ := List.forall₂_cons_right_iff.mp hp.spends
    obtain rfl := List.forall₂_nil_right_iff.mp hks
    obtain ⟨cp, hcp, hget⟩ := hk
    obtain rfl : k = 0 := by
      cases k with
      | zero => rfl
      | succ k => simp at hget
    obtain ⟨output, cs, hvalue, hcs, hpcreates⟩ := List.forall₂_cons_left_iff.mp hp.values
    obtain rfl := List.forall₂_nil_left_iff.mp hcs
    have hqspends : q.spends = [] := List.forall₂_nil_right_iff.mp hq.spends
    have hqcreates : q.creates = [] := List.forall₂_nil_left_iff.mp hq.values
    refine ⟨output, hvalue.trans (value_ofAmount_billion _ _ _), hp.first (by decide) 0 output ?_, ?_⟩
    · rw [hpcreates]
      rfl
    · simp [apply, spends, creates, hpspends, hpcreates, hqspends, hqcreates, genesisLedger, spend]
  have hnumber : b.txpow.getBlockNumber = .one := by
    rw [TxPoW.getBlockNumber, Option.some.inj (hcopy'.symm.trans hcopy), hcopied, hheader]
    rfl
  have hearlier : g.blockTime.toRat ≤ b.txpow.getBlockNumber.toRat := by
    rw [hnumber, htime, MiniNumber.toRat_zero, MiniNumber.toRat_one]
    norm_num
  obtain ⟨size, f', hchain', hfinal', htime', hroot, hholds'⟩ := TxPoWTreeNode.constructMMR_spec hchain hholds
    hpeaks hearlier (congrArg MiniNumber.toRat hnumber).ge (hspentCoins ▸ hmade.play.spent) (by rw [hnewCoins, hmade.creates])
    (hnewCoins ▸ hmade.wire) hbuilt
  rw [happly] at hholds'
  have htotal : SpendLedger.total Coin.value (genesisLedger gencoin output) < 10 ^ 20 := by
    rw [total_genesisLedger, hvalue]
    norm_num
  refine ⟨gencoin, output, ⟨⟨m', size, f'⟩, rfl, sealed_next hchain' hseal hholds' hshort hroot htotal, hfinal',
    hholds', htime', ?_, htotal⟩, hcoin, hvalue, hid⟩
  show 1 ≤ m'.blockTime.toRat
  rw [htime', hnumber, MiniNumber.toRat_one]

end Ledger

/-! ## A first block, and one after it

The hash here is the place in a table, or the bytes themselves: it has no collisions, and whatever must be
short to be written is in the table. -/

namespace Sample

/-- The hash of a table. -/
def hashWith (table : List (List Byte)) (bs : List Byte) : List Byte :=
  match table.idxOf? bs with
  | some i => [0, UInt8.ofNat i]
  | none => 1 :: bs

theorem hashWith_injective {table : List (List Byte)} (h : table.length ≤ 256) :
    Function.Injective (hashWith table) := by
  intro as bs heq
  unfold hashWith at heq
  cases ha : table.idxOf? as with
  | none =>
    cases hb : table.idxOf? bs with
    | none =>
      rw [ha, hb] at heq
      exact (List.cons.inj heq).2
    | some j =>
      rw [ha, hb] at heq
      exact absurd (List.cons.inj heq).1 (by decide)
  | some i =>
    cases hb : table.idxOf? bs with
    | none =>
      rw [ha, hb] at heq
      exact absurd (List.cons.inj heq).1 (by decide)
    | some j =>
      rw [ha, hb] at heq
      obtain ⟨hi, hias, -⟩ := List.idxOf?_eq_some_iff.mp ha
      obtain ⟨hj, hjbs, -⟩ := List.idxOf?_eq_some_iff.mp hb
      have hplace := (List.cons.inj (List.cons.inj heq).2).1
      rw [← UInt8.toNat_inj, UInt8.toNat_ofNat', UInt8.toNat_ofNat'] at hplace
      obtain rfl : i = j := by omega
      exact hias.symm.trans hjbs

/-- Place `i` of the table, as a hash. -/
def hashed (i : ℕ) : MiniData := ⟨[0, UInt8.ofNat i]⟩

/-- The bytes of an encoding. -/
def bytesOf (encoding : Result (List Byte)) : List Byte := encoding.toOption.getD []

def trueAddress : MiniData := ⟨1 :: MMRData.leafBytes (MiniData.mk Address.trueScript).writeDataStream .zero⟩

def truescript : ScriptProof := ⟨Address.trueScript, ⟨.zero, []⟩, trueAddress⟩

def gencoin : Coin := Coin.ofAmount GENESIS_COINID trueAddress billionStored Token.TOKENID_MINIMA

/-- A coin with the billion, in the MMR. -/
def coinAt (base : MiniData) (number block : ℕ) : Coin :=
  { Coin.ofAmount ⟨1 :: (base.writeDataStream ++ (MiniNumber.ofInt 0).writeDataStream)⟩ trueAddress
      billionStored Token.TOKENID_MINIMA with
    mmrEntryNumber := .ofNat number
    blockCreated := storedNat block }

/-- The coin of the first block. -/
def firstCoin : Coin := coinAt (hashed 1) 1 1

/-- The coin of the second one. -/
def secondCoin : Coin := coinAt firstCoin.coinID 2 2

/-- A body with one transaction, which moves the billion. -/
def bodyOf (difficulty : MiniData) (coin : Coin) (proof : MMRProof) : TxBody where
  prng := ⟨[0]⟩
  txnDifficulty := difficulty
  transaction := genesisTransaction coin trueAddress
  witness := ⟨[], [some ⟨coin, proof⟩], [truescript]⟩
  burnTransaction := emptyTransaction
  burnWitness := Witness.empty
  txPowIDList := []

def firstBody : TxBody := bodyOf Crypto.MAX_HASH gencoin ⟨.zero, []⟩

def secondBody : TxBody :=
  bodyOf MiniData.zeroTxPowID firstCoin ⟨.one, [⟨1, hashed 2, .zero, false, MiniNumber.canonical_zero⟩]⟩

/-- What a leaf is the hash of. -/
def leafOf (c : Coin) (value : MiniNumber) : List Byte := MMRData.leafBytes (bytesOf c.writeDataStream) value

/-- The leaves, the transaction and the parents of the two blocks, and the body of the first one. -/
def table : List (List Byte) :=
  [leafOf gencoin .billion, bytesOf (genesisTransaction gencoin trueAddress).writeDataStream,
    leafOf { gencoin with spent := 1 } .zero, leafOf firstCoin .billion,
    MMRData.parentBytes (hashed 2) (hashed 3) (.ofInt (10 ^ 9)), leafOf { firstCoin with spent := 1 } .zero,
    leafOf secondCoin .billion, MMRData.parentBytes (hashed 2) (hashed 5) .zero,
    MMRData.parentBytes (hashed 7) (hashed 6) (.ofInt (10 ^ 9)), bytesOf firstBody.writeDataStream]

def firstHeader : TxHeader :=
  rootedHeader ⟨hashWith table⟩ (storedNat 0) firstBody (hashed 4) (storedNat (10 ^ 9))

def hashing : Crypto := ⟨hashWith (table ++ [bytesOf firstHeader.writeDataStream])⟩

theorem hashing_injective : Function.Injective hashing.hashData := hashWith_injective (by decide)

def oneWeight : ℕ → Text := fun _ => MiniNumber.ascii "1"

/-- The tokenizer, the parser and the interpreter, for more steps than `RETURN TRUE` takes. -/
def scriptParser : Contract.Parser :=
  Kissvm.Contract.meteredParser (fun _ _ _ _ => Kissvm.Contract.idleLibrary) 20

def secondHeader : TxHeader where
  nonce := TxPoW.oneStored
  chainID := TxPoWChecker.currentNetwork
  timeMilli := storedNat 1
  blockNumber := storedNat 2
  blockDifficulty := Magic.minTxPoWWork
  superParents := fun _ => hashed 10
  mmrRoot := hashed 8
  mmrTotal := storedNat (10 ^ 9)
  magic := Magic.defaults
  customHash := MiniData.zeroTxPowID
  txBodyHash := ⟨[0]⟩

/-- Flags of transactions that were not checked yet. -/
def freshFlags : ℕ → ScriptCache × ScriptCache := fun _ => (.fresh, .fresh)

/-- The checks of the second block on the first one. -/
def checkSecond (n : TreeNode) (m : MMR) (t : TxPoW) : Result Bool :=
  TxPoWChecker.checkTxPoWBlock .global insertionByTime Cascade.empty
    (TxPoWChecker.checkTransactions hashing scriptParser oneWeight false none freshFlags m [] t []) n t

/-- Both blocks, and what is checked of them. -/
def play : Result Bool := do
  let g ← genesisMMR hashing
  let (n, m) ← doGenesis hashing oneWeight ⟨[0]⟩ (storedNat 0) trueAddress
  let t ← TxPoW.calculateTXPOWID hashing oneWeight secondHeader (some secondBody)
  let basic ← TxPoWChecker.checkTxPoWBasic hashing t
  let block ← checkSecond n m t
  let b ← TxBlock.make hashing oneWeight false none m [] t []
  let next ← TxPoWTreeNode.constructMMR hashing b
  return basic && block && decide (b.spentCoins.length = 1) && [g, m, next.1].all fun m =>
    decide ((∀ x ∈ m.setEntries, ∀ d ∈ x.mmrData, MMR.Short d.data) ∧
      MMR.ShortBags hashing m.getPeaks.length m.getPeaks)

theorem play_eq : play = .ok true := by decide +kernel

theorem firstCoin_wire : firstCoin.Wire :=
  ⟨by decide, by decide, by decide, Coin.wire_ofNat (n := 1) (by norm_num), by decide, by simp [firstCoin, coinAt,
    Coin.ofAmount], by simp [firstCoin, coinAt, Coin.ofAmount]⟩

theorem secondBody_wire : secondBody.Wire hashing := by
  refine ⟨by decide, by decide, genesisTransaction_wire firstCoin_wire ?_, ⟨by decide, by decide, by decide,
    by simp [secondBody, bodyOf], ?_, ?_⟩, emptyTransaction_wire, ⟨by decide, by decide, by decide,
    by simp [secondBody, bodyOf, Witness.empty], by simp [secondBody, bodyOf, Witness.empty],
    by simp [secondBody, bodyOf, Witness.empty]⟩, by decide, by simp [secondBody, bodyOf]⟩
  · exact ⟨by decide, by decide, by decide, Coin.wire_ofNat (n := 0) (by norm_num), by decide,
      by simp [genesisOutput, Coin.ofAmount], by simp [genesisOutput, Coin.ofAmount]⟩
  · simp only [secondBody, bodyOf, List.mem_singleton, forall_eq, Option.mem_some_iff]
    rintro cp rfl
    refine ⟨firstCoin_wire, by decide +kernel, by decide, ?_⟩
    simp only [List.mem_singleton, forall_eq]
    exact ⟨by decide, rfl⟩
  · simp only [secondBody, bodyOf, List.mem_singleton, forall_eq]
    exact ⟨by decide, ⟨by decide +kernel, by decide, by simp [truescript]⟩, by decide +kernel⟩

theorem second_wire {t : TxPoW}
    (h : TxPoW.calculateTXPOWID hashing oneWeight secondHeader (some secondBody) = .ok t) :
    t.Wire hashing oneWeight := by
  obtain ⟨hheader, hbody, -⟩ := TxPoW.calculateTXPOWID_eq_ok h
  refine ⟨?_, ?_, by rw [hheader, hbody, h]⟩
  · rw [hheader]
    exact ⟨by decide, by decide, fun _ => (by decide : (hashed 10).getLength ≤ MiniData.maxHashLength), by decide,
      Magic.wire_defaults, by decide, by decide⟩
  · rw [hbody]
    simpa using secondBody_wire

/-- The coin of the first block has a short id. -/
theorem transactionID_short : genesisCoin hashing = .ok gencoin ∧
    (genesisTransaction gencoin trueAddress).writeDataStream =
      .ok (bytesOf (genesisTransaction gencoin trueAddress).writeDataStream) ∧
    (hashing.hashData (bytesOf (genesisTransaction gencoin trueAddress).writeDataStream)).length ≤
      MiniData.maxHashLength := by decide +kernel

/-- The coin proof of the second block. -/
def secondProof : CoinProof := ⟨firstCoin, .one, [⟨1, hashed 2, .zero, false, MiniNumber.canonical_zero⟩]⟩

/-- **The second block is accepted on the first one,** and spends its coin. -/
theorem exists_branch : ∃ (n₀ n : TreeNode) (g m₀ m : MMR) (a : Added),
    genesisMMR hashing = .ok g ∧ ShortHashes hashing g ∧
      doGenesis hashing oneWeight ⟨[0]⟩ (storedNat 0) trueAddress = .ok (n₀, m₀) ∧ ShortHashes hashing m₀ ∧
        Branch hashing scriptParser oneWeight .global insertionByTime (fun n' m' => n' = n₀ ∧ m' = m₀) n m [m₀] [a] ∧
          a.txBlock.spentCoins.length = 1 ∧ TxPoWChecker.InMMR hashing m₀ ⟨[], none⟩ (some secondProof) := by
  have hplay := play_eq
  unfold play at hplay
  simp only [Result.bind_eq_ok, Result.pure_eq_ok, Bool.and_eq_true, decide_eq_true_eq, List.all_cons,
    List.all_nil, and_true] at hplay
  obtain ⟨g, hg, ⟨n₀, m₀⟩, hgenesis, t, ht, basic, hbasic, block, hblock, b, hmake, ⟨m, coins⟩, hbuilt,
    ⟨⟨rfl, rfl⟩, hspent⟩, ⟨hg₁, hg₂⟩, ⟨hm₁, hm₂⟩, hm'₁, hm'₂⟩ := hplay
  obtain ⟨hheader, hbody, -⟩ := TxPoW.calculateTXPOWID_eq_ok ht
  have htrans : t.isTransaction = true := by
    rw [TxPoW.isTransaction, hbody]
    decide
  have haccepts : Accepts hashing scriptParser oneWeight .global insertionByTime Cascade.empty freshFlags (fun _ => [])
      n₀ m₀ [] t [] := by
    refine ⟨?_, ⟨?_, by simp⟩, ?_, fun i u b _ _ => rfl, ?_, hblock⟩
    · simpa using second_wire ht
    · rw [TxPoW.getBlockTransactions, hbody]
      rfl
    · simp only [List.mem_singleton, forall_eq]
      exact Or.inl htrans
    · simpa using hbasic
  refine ⟨n₀, _, g, m₀, m, ⟨t, [], fun _ => [], b⟩, hg, ⟨hg₁, hg₂⟩, hgenesis, ⟨hm₁, hm₂⟩,
    .add (.start ⟨rfl, rfl⟩) haccepts hmake hbuilt ⟨hm'₁, hm'₂⟩, hspent, ?_⟩
  refine haccepts.inMMR t (by simp) (secondBody.transaction, secondBody.witness) ?_ _ (by simp [secondBody, bodyOf,
    secondProof])
  rw [pairsOf, hbody]
  simp

end Sample

end Main

end Minima
