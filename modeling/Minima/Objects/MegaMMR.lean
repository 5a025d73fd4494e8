import Minima.Database.TxPoWTreeNode

/-! # `MegaMMR`: one MMR over all the blocks

A MegaMMR keeps one MMR, to which it adds block after block, and the coins that are not spent.

* **`MegaMMR.addBlock`** — add a block: its peaks, the coins that it spends, the coins that it makes.
* **`MegaMMR.addBlock_nodup`** — the coins stay a map: no two under one id. -/

namespace Minima

/-- The flags of `GeneralParams` that say what a MegaMMR prunes. -/
structure PruneParams where
  megaprune : Bool
  state : Bool
  tokens : Bool
  deriving DecidableEq

/-- `MegaMMR`. The coins are kept under their coin ids, no two under one. -/
structure MegaMMR where
  mmr : MMR
  allUnspentCoins : List Coin

namespace MegaMMR

/-- `isPrunable`. -/
def isPrunable (P : PruneParams) (c : Coin) : Bool :=
  P.megaprune &&
    (c.address.getLength != 32 || (P.state && !c.state.isEmpty) ||
      (P.tokens && !c.tokenID.isEqual Token.TOKENID_MINIMA))

/-- The data of a coin that a block spends: the coin marked as spent, without value. -/
def spentData (C : Crypto) (c : Coin) : Result MMRData := do
  let spentcoin ← TxPoWTreeNode.deepCopied c
  MMRData.createMMRDataLeafNode C (spentcoin.setSpent true).writeDataStream .zero

/-- The coin that a block makes, as it stands in the MMR. -/
def newCoin (block : StoredNumber) (e : MMREntryNumber) (output : Coin) : Result Coin := do
  let newcoin ← TxPoWTreeNode.deepCopied output
  return { newcoin with mmrEntryNumber := e, blockCreated := block, spent := 0 }

/-- The data of a coin that a block makes, marked when it can be pruned. -/
def newData (C : Crypto) (P : PruneParams) (newcoin : Coin) : Result MMRData := do
  let mmrdata ← MMRData.createMMRDataLeafNode C newcoin.writeDataStream newcoin.amount.val
  return { mmrdata with unspendable := isPrunable P newcoin }

/-- A spent coin of `addBlock`. -/
def spendInput (C : Crypto) (s : MegaMMR) (input : CoinProof) : Result MegaMMR := do
  let mmrdata ← spentData C input.coin
  let m ← s.mmr.updateEntry C .none input.coin.mmrEntryNumber input.proof mmrdata
  return ⟨m, s.allUnspentCoins.filter fun c => !c.coinID.isEqual input.coin.coinID⟩

/-- `emplace`: a coin whose id is there already is dropped. -/
def emplace (coins : List Coin) (c : Coin) : List Coin :=
  if coins.any fun c' => c'.coinID.isEqual c.coinID then coins else coins ++ [c]

/-- A new coin of `addBlock`. -/
def addOutput (C : Crypto) (P : PruneParams) (block : StoredNumber) (s : MegaMMR) (output : Coin) :
    Result MegaMMR := do
  let newcoin ← newCoin block s.mmr.entryNumber output
  let mmrdata ← newData C P newcoin
  let added ← s.mmr.addEntry C .none mmrdata
  return ⟨added.1, emplace s.allUnspentCoins newcoin⟩

/-- **`addBlock`.** At the end the root is compared with that of the block, for the log. -/
def addBlock (C : Crypto) (P : PruneParams) (mega : MegaMMR) (b : TxBlock) : Result MegaMMR := do
  let time ← b.txpow.getBlockNumber.copy
  let m ← { mega.mmr with blockTime := time }.setPeaks b.previousPeaks
  let m ← m.calculateEntryNumberFromPeaks
  let s ← b.spentCoins.foldlM (spendInput C) ⟨m, mega.allUnspentCoins⟩
  let s ← b.newCoins.foldlM (addOutput C P b.txpow.header.blockNumber) s
  match ← s.mmr.getRoot C with
  | none => undefinedBehaviour "null root"
  | some _ => return s

/-! ## The map of coins -/

/-- What every step of a fold keeps, the fold keeps. -/
theorem foldlM_keeps {σ α : Type} {step : σ → α → Result σ} {P : σ → Prop}
    (hstep : ∀ s a s', step s a = .ok s' → P s → P s') {as : List α} {s s' : σ}
    (h : as.foldlM step s = .ok s') (hs : P s) : P s' := by
  induction as generalizing s with
  | nil => exact Except.ok.inj h ▸ hs
  | cons a as ih =>
    rw [List.foldlM_cons] at h
    obtain ⟨t, ht, hrest⟩ := Result.bind_eq_ok.mp h
    exact ih hrest (hstep s a t ht hs)

/-- No two coins under one id. -/
def Distinct (mega : MegaMMR) : Prop := (mega.allUnspentCoins.map Coin.coinID).Nodup

theorem nodup_emplace {coins : List Coin} (h : (coins.map Coin.coinID).Nodup) (c : Coin) :
    ((emplace coins c).map Coin.coinID).Nodup := by
  unfold emplace
  split
  · exact h
  · rename_i hnew
    rw [List.map_append, List.nodup_append]
    refine ⟨h, List.nodup_singleton _, fun id hid id' hid' heq => ?_⟩
    obtain ⟨c', hc', rfl⟩ := List.mem_map.mp hid
    rw [List.map_singleton, List.mem_singleton] at hid'
    exact hnew (List.any_eq_true.mpr ⟨c', hc', by simp [heq, hid']⟩)

theorem spendInput_distinct {C : Crypto} (s : MegaMMR) (input : CoinProof) (s' : MegaMMR)
    (h : spendInput C s input = .ok s') (hs : s.Distinct) : s'.Distinct := by
  obtain ⟨mmrdata, -, h⟩ := Result.bind_eq_ok.mp h
  obtain ⟨m, -, h⟩ := Result.bind_eq_ok.mp h
  rw [← Except.ok.inj h]
  exact hs.sublist (List.filter_sublist.map Coin.coinID)

theorem addOutput_distinct {C : Crypto} {P : PruneParams} {block : StoredNumber} (s : MegaMMR)
    (output : Coin) (s' : MegaMMR) (h : addOutput C P block s output = .ok s') (hs : s.Distinct) :
    s'.Distinct := by
  obtain ⟨newcoin, -, h⟩ := Result.bind_eq_ok.mp h
  obtain ⟨mmrdata, -, h⟩ := Result.bind_eq_ok.mp h
  obtain ⟨added, -, h⟩ := Result.bind_eq_ok.mp h
  rw [← Except.ok.inj h]
  exact nodup_emplace hs newcoin

/-- **Adding a block** keeps one coin under an id. -/
theorem addBlock_nodup {C : Crypto} {P : PruneParams} {mega mega' : MegaMMR} {b : TxBlock}
    (h : addBlock C P mega b = .ok mega') (hmega : mega.Distinct) : mega'.Distinct := by
  obtain ⟨time, -, h⟩ := Result.bind_eq_ok.mp h
  obtain ⟨m, -, h⟩ := Result.bind_eq_ok.mp h
  obtain ⟨m', -, h⟩ := Result.bind_eq_ok.mp h
  obtain ⟨s, hs, h⟩ := Result.bind_eq_ok.mp h
  obtain ⟨t, ht, h⟩ := Result.bind_eq_ok.mp h
  obtain ⟨root, -, h⟩ := Result.bind_eq_ok.mp h
  have hspent : s.Distinct := foldlM_keeps spendInput_distinct hs hmega
  have hadded : t.Distinct := foldlM_keeps addOutput_distinct ht hspent
  cases root with
  | none => cases h
  | some root => exact Except.ok.inj h ▸ hadded

end MegaMMR

end Minima
