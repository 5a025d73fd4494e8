import Minima.Mmr.MMR
import Minima.Objects.TxBlock

/-! # `TxPoWTreeNode`: a block of the tree with its MMR

The constructor of a node makes the MMR of its block from the `TxBlock` alone: the peaks that were there
before, the coins that the block spends, by their proofs, and the coins that it makes.

* **`TxPoWTreeNode.constructMMR`** — the MMR and the coins of a block. -/

namespace Minima

/-- `TxPoWTreeNode`: what a node keeps besides its children. The relevant coins that it computes from
`coins` and `relevantMMRCoins` are left out. -/
structure BlockNode where
  txBlock : TxBlock
  mmr : MMR
  coins : List Coin
  relevantMMRCoins : List MMREntryNumber

namespace TxPoWTreeNode

/-- A `deepCopy` that is dereferenced. -/
def deepCopied (c : Coin) : Result Coin :=
  match c.deepCopy with
  | some copy => .ok copy
  | none => undefinedBehaviour "null Coin"

/-- The peaks of the block before, each with its data. -/
def addPeaks : MMR → List MMREntry → Result MMR
  | m, [] => .ok m
  | m, peak :: peaks =>
    match peak.mmrData with
    | none => addPeaks m peaks
    | some pdata => do
      let (m, _) ← m.setEntry peak.row peak.entryNumber pdata
      addPeaks m peaks

/-- A spent coin: a copy that is marked as spent takes its place in the MMR, with no value. -/
def spendInput (C : Crypto) (s : MMR × List Coin) (input : CoinProof) : Result (MMR × List Coin) := do
  let spentcoin ← deepCopied input.coin
  let spentcoin := spentcoin.setSpent true
  let mmrdata ← MMRData.createMMRDataLeafNode C spentcoin.writeDataStream .zero
  let m ← s.1.updateEntry C .none input.coin.mmrEntryNumber input.proof mmrdata
  return (m, s.2 ++ [spentcoin])

/-- A new coin: a copy with its entry number and the number of the block goes to the end of the MMR. -/
def addOutput (C : Crypto) (block : StoredNumber) (s : MMR × List Coin) (output : Coin) :
    Result (MMR × List Coin) := do
  let newcoin ← deepCopied output
  let newcoin := { newcoin with mmrEntryNumber := s.1.entryNumber, blockCreated := block, spent := 0 }
  let mmrdata ← MMRData.createMMRDataLeafNode C newcoin.writeDataStream output.amount.val
  let (m, _) ← s.1.addEntry C .none mmrdata
  return (m, s.2 ++ [newcoin])

/-- **`constructMMR`**: the MMR of the block, and its coins. The node has no parent yet, so lookups see
this MMR alone. -/
def constructMMR (C : Crypto) (b : TxBlock) : Result (MMR × List Coin) := do
  let time ← b.txpow.getBlockNumber.copy
  let m ← addPeaks { MMR.new with blockTime := time } b.previousPeaks
  let m ← m.calculateEntryNumberFromPeaks
  let s ← b.spentCoins.foldlM (spendInput C) (m, [])
  let s ← b.newCoins.foldlM (addOutput C b.txpow.header.blockNumber) s
  let m ← s.1.finalizeSet C
  return (m, s.2)

end TxPoWTreeNode

end Minima
