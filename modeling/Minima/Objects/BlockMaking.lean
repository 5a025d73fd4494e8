import Minima.Database.TxPoWTreeNode
import Minima.Objects.Witness

/-! # Making a `TxBlock`

The constructor of a `TxBlock` takes the MMR of the parent, the block and the transactions it lists. It
makes a proof in the parent's MMR of every coin that is spent, and the coins that the outputs become: with
their ids, the state of their transaction, and their tokens.

* **`TxBlock.make`** — the constructor. -/

namespace Minima

namespace TxPoW

/-- `deepCopy`: write the `TxPoW` and read it back; a null pointer when either throws. -/
def deepCopy (C : Crypto) (weightText : ℕ → Text) (t : TxPoW) : Option TxPoW :=
  match t.writeDataStream with
  | .error _ => none
  | .ok bytes =>
    match (readDataStream C weightText bytes).1 with
    | .error _ => none
    | .ok copy => some copy

end TxPoW

namespace TxBlock

/-- What `calculateCoins` works on: the MMR that is played with, the spent coins and the new ones. -/
structure Making where
  mmr : MMR
  spentCoins : List CoinProof
  newCoins : List Coin

/-- `getTxpoWFromList`. -/
def getTxpoWFromList (zTxPoWID : MiniData) (zAllTrans : List TxPoW) : Option TxPoW :=
  zAllTrans.find? fun txp => txp.txPoWID.isEqual zTxPoWID

section Calculate

variable (C : Crypto) (A : Ancestry)

/-- A coin proof of the witness: its coin is set in the MMR, and gets a proof from there. -/
def spendCoin (s : Making) : Option CoinProof → Result Making
  | none => undefinedBehaviour "null CoinProof"
  | some csp => do
    let data ← csp.getMMRData C
    let mmr ← s.mmr.updateEntry C A csp.coin.mmrEntryNumber csp.proof data
    let proof ← mmr.getProofToPeak A csp.coin.mmrEntryNumber
    return { s with mmr, spentCoins := s.spentCoins ++ [⟨csp.coin, proof⟩] }

/-- `calculateCoinID` of `Transaction`. -/
def calculateCoinID (zBaseCoinID : MiniData) (zOutput : ℕ) : MiniData :=
  C.hashObjects (.ok zBaseCoinID.writeDataStream) (.ok (MiniNumber.ofInt zOutput).writeDataStream)

/-- `basecoinid`: the id of the transaction for a coinbase and in the first block, else the id of the
first coin that is spent. -/
def baseCoinID (blockTime : MiniNumber) (zTransaction : Transaction) (coinspent : List (Option CoinProof)) :
    Result MiniData :=
  match coinspent with
  | [] => .ok (zTransaction.calculateTransactionID C)
  | first :: _ =>
    if blockTime.isEqual .one then .ok (zTransaction.calculateTransactionID C)
    else match first with
      | none => undefinedBehaviour "null CoinProof"
      | some csp => .ok csp.coin.coinID

/-- The token of an output that creates one: a new token with the amount of the output, whose id is that
of the coin. -/
def createToken (block : StoredNumber) (coinid : MiniData) (newoutput correctcoin : Coin) : Result Coin :=
  if newoutput.tokenID.isEqual Token.TOKENID_CREATE then
    match newoutput.token with
    | none => throwException "Token creation coin has null token pointer"
    | some creator =>
      let newtoken : Token := ⟨coinid, creator.tokenScale, newoutput.amount, creator.tokenName,
        creator.tokenScript, block⟩
      match newtoken.getTokenID C with
      | none => undefinedBehaviour "null TokenID"
      | some tokenID => .ok { correctcoin with tokenID, token := some newtoken }
  else .ok correctcoin

/-- The coin that an output becomes. -/
def correctCoin (block : StoredNumber) (zTransaction : Transaction) (basecoinid : MiniData)
    (newoutput : Coin) (num : ℕ) : Result Coin :=
  let coinid := calculateCoinID C basecoinid num
  match newoutput.getSameCoinWithCoinID coinid with
  | none => undefinedBehaviour "null Coin"
  | some copy =>
    let correctcoin := if copy.storeState then { copy with state := zTransaction.state } else copy
    createToken C block coinid newoutput correctcoin

/-- `calculateCoins` of a transaction and its witness. -/
def calculateTransaction (block : StoredNumber) (s : Making) (zTransaction : Transaction)
    (zWitness : Witness) : Result Making := do
  let s ← zWitness.coinProofs.foldlM (spendCoin C A) s
  let basecoinid ← baseCoinID C s.mmr.blockTime zTransaction zWitness.coinProofs
  let coins ← zTransaction.outputs.zipIdx.mapM fun output =>
    correctCoin C block zTransaction basecoinid output.1 output.2
  return { s with newCoins := s.newCoins ++ coins }

/-- `calculateCoins` of a `TxPoW`: its transaction, then its burn transaction. -/
def calculateCoins (block : StoredNumber) (s : Making) (zTxPoW : TxPoW) : Result Making := do
  let body ← zTxPoW.getTxBody
  let s ← calculateTransaction C A block s body.transaction body.witness
  calculateTransaction C A block s body.burnTransaction body.burnWitness

/-- The loop over the transactions of the block, in the order of the block. -/
def calculateListed (block : StoredNumber) (zAllTrans : List TxPoW) (s : Making) (txnid : MiniData) :
    Result Making :=
  match getTxpoWFromList txnid zAllTrans with
  | none => throwException "SERIOUS ERROR : TxBlock creation with missing txns.. "
  | some txp => calculateCoins C A block s txp

end Calculate

/-- **The constructor:** the MMR of the parent with those before it, the block and its transactions. Its
copy of the block is asked for by everyone who takes the `TxBlock`, and then a null pointer throws. -/
def make (C : Crypto) (weightText : ℕ → Text) (isMega : Bool) (megaMMR : Option MMR) (zParentMMR : MMR)
    (older : List MMR) (zTxPoW : TxPoW) (zAllTrans : List TxPoW) : Result TxBlock := do
  match zTxPoW.deepCopy C weightText with
  | none => throwException "TxBlock::getTxPoW called but mTxPoW is null"
  | some txpow => do
    let previousPeaks := zParentMMR.getPeaks
    let (copymmr, parent) ← MMR.childOf C isMega zParentMMR
    let A : Ancestry := ⟨parent :: older, megaMMR⟩
    let block := txpow.header.blockNumber
    let s ← calculateCoins C A block ⟨copymmr, [], []⟩ zTxPoW
    let s ← zTxPoW.getBlockTransactions.foldlM (calculateListed C A block zAllTrans) s
    return ⟨txpow, previousPeaks, s.spentCoins, s.newCoins⟩

end TxBlock

end Minima
