import Minima.Brains.Retargeting
import Minima.Brains.TxPoWScripts
import Minima.Database.ArchiveManager
import Minima.Objects.BlockMaking

/-! # `TxPoWChecker`: what a `TxPoW` is checked for

`checkTxPoWBasic` looks at one `TxPoW` when it arrives. `checkTxPoWBlock` looks at a block with the `TxPoW`s
it lists, against the node that it is put on: coin ids, sizes, coin proofs, scripts, and the root of the
MMR that the block says it makes.

* **`TxPoWChecker.checkTxPoWBasic`**, **`TxPoWChecker.checkTxPoWSimple`** — the checks of one `TxPoW`.
* **`TxPoWChecker.checkTransactions`** — the last part of `checkTxPoWBlock`. -/

namespace Minima

namespace Transaction

/-- `calculateStateSize`: the length of the state behind its count, and a million when a variable cannot be
written. -/
def calculateStateSize (t : Transaction) : ℤ :=
  match Coin.writeAll StateVariable.writeDataStream t.state with
  | .ok bytes => ((MiniNumber.ofInt t.state.length).writeDataStream.length + bytes.length : ℕ)
  | .error _ => 1000000

/-- The state that the outputs of a transaction keep. -/
def keptState (t : Transaction) : ℤ := t.calculateStateSize * (t.outputs.filter Coin.storeState).length

end Transaction

namespace RelayPolicy

/-- `checkMaxStateStoreSize`. -/
def checkMaxStateStoreSize (b : TxBody) (zMaxSize : ℤ) : Bool :=
  decide (b.transaction.keptState + b.burnTransaction.keptState ≤ zMaxSize)

end RelayPolicy

namespace TxPoWChecker

/-! ## Coin ids -/

/-- The coin ids of the coin proofs of a witness, as texts. -/
def witnessCoinIDs (w : Witness) : List Text :=
  w.coinProofs.filterMap fun p => p.map fun cproof => cproof.coin.coinID.to0xString

/-- The coin ids of a `TxPoW`: none when it is no transaction. -/
def coinIDs (zTxPoW : TxPoW) : List Text :=
  match zTxPoW.body with
  | some b => if zTxPoW.isTransaction then witnessCoinIDs b.witness ++ witnessCoinIDs b.burnWitness else []
  | none => []

/-- As a set, the coin ids are as many as they are. -/
def uniqueCoinIDs (allcoinid : List Text) : Bool := allcoinid.dedup.length == allcoinid.length

/-! ## `checkTxPoWBasic` -/

section Basic

variable (C : Crypto)

/-- Whether a token id is that of a token that is there. -/
def isTokenID (tokenID : MiniData) : Option Token → Result Bool
  | none => .ok false
  | some token =>
    match token.getTokenID C with
    | none => undefinedBehaviour "null TokenID"
    | some id => .ok (tokenID.isEqual id)

/-- The body of the loop over the inputs, with the coin ids used so far. -/
def checkBasicInput (zWitness : Witness) (allcoinsused : List Text) (input : Coin) :
    Option CoinProof → Result Bool
  | none => undefinedBehaviour "null CoinProof"
  | some cproof => do
    if allcoinsused.contains cproof.coin.coinID.to0xString then return false
    let amount := input.amount.val.isEqual cproof.coin.amount.val
    let address := input.address.isEqual cproof.coin.address
    let token := input.tokenID.isEqual cproof.coin.tokenID
    if !amount || !address || !token then return false
    if !input.coinID.isEqual Coin.COINID_ELTOO && !input.coinID.isEqual cproof.coin.coinID then return false
    if !input.tokenID.isEqual Token.TOKENID_MINIMA then
      if !(← isTokenID C input.tokenID input.token) then return false
      if !(← isTokenID C cproof.coin.tokenID cproof.coin.token) then return false
    if cproof.coin.getSpent then return false
    return (zWitness.getScript input.address).isSome

/-- The loop over the inputs and the coin proofs. -/
def checkBasicInputs (zWitness : Witness) : List Text → List Coin → List (Option CoinProof) → Result Bool
  | _, [], _ => .ok true
  | _, _ :: _, [] => .ok true
  | allcoinsused, input :: inputs, cproof :: cproofs => do
    if !(← checkBasicInput C zWitness allcoinsused input cproof) then return false
    let coinid := (cproof.map fun p => p.coin.coinID.to0xString).toList
    checkBasicInputs zWitness (coinid ++ allcoinsused) inputs cproofs

/-- The loop over the outputs: a token is there, and is the one of the token id. -/
def checkBasicOutputs : List Coin → Result Bool
  | [] => .ok true
  | cc :: outputs => do
    if !cc.tokenID.isEqual Token.TOKENID_MINIMA && !cc.tokenID.isEqual Token.TOKENID_CREATE then
      if !(← isTokenID C cc.tokenID cc.token) then return false
    else if cc.tokenID.isEqual Token.TOKENID_CREATE then
      if cc.token.isNone then return false
    checkBasicOutputs outputs

/-- `checkTxPoWBasic_impl`. -/
def checkTxPoWBasic_impl (zTransaction : Transaction) (zWitness : Witness) : Result Bool := do
  if zTransaction.isEmpty then return true
  if !(← zTransaction.checkValid) then return false
  if zTransaction.inputs.length = 0 then return false
  if zTransaction.inputs.length ≠ zWitness.coinProofs.length then return false
  if !(← checkBasicInputs C zWitness [] zTransaction.inputs zWitness.coinProofs) then return false
  checkBasicOutputs C zTransaction.outputs

/-- **`checkTxPoWBasic`**. -/
def checkTxPoWBasic (zTxPoW : TxPoW) : Result Bool := do
  if !zTxPoW.header.chainID.isEqual currentNetwork then return false
  if !uniqueCoinIDs (coinIDs zTxPoW) then return false
  let b ← zTxPoW.getTxBody
  if !(← checkTxPoWBasic_impl C b.transaction b.witness) then return false
  if !b.transaction.linkHash.isEqual MiniData.zeroTxPowID then return false
  if !b.burnTransaction.isEmpty then
    if !b.burnTransaction.linkHash.isEqual (b.transaction.calculateTransactionID C) then return false
    return ← checkTxPoWBasic_impl C b.burnTransaction b.burnWitness
  return true

end Basic

/-! ## `checkTxPoWSimple` -/

section Simple

variable (C : Crypto) (parse : Contract.Parser)

/-- The loop of `checkMMR_impl`. -/
def checkCoinProofs (zTipMMR : MMR) (A : Ancestry) : List (Option CoinProof) → Result Bool
  | [] => .ok true
  | none :: _ => undefinedBehaviour "null CoinProof"
  | some cproof :: cproofs => do
    let mmrcoin ← cproof.getMMRData C
    if !(← zTipMMR.checkProofTimeValid C A cproof.coin.mmrEntryNumber mmrcoin cproof.proof) then return false
    checkCoinProofs zTipMMR A cproofs

/-- `checkMMR_impl`. -/
def checkMMR_impl (zTipMMR : MMR) (A : Ancestry) (zWitness : Witness) : Result Bool :=
  checkCoinProofs C zTipMMR A zWitness.coinProofs

/-- `checkMMR`: main, then burn. -/
def checkMMR (zTipMMR : MMR) (A : Ancestry) (b : TxBody) : Result Bool := do
  if !(← checkMMR_impl C zTipMMR A b.witness) then return false
  checkMMR_impl C zTipMMR A b.burnWitness

/-- **`checkTxPoWSimple`**, with the flags that the two transactions have. -/
def checkTxPoWSimple (zTipMMR : MMR) (A : Ancestry) (flags : ScriptCache × ScriptCache)
    (zTxPoW zBlock : TxPoW) : Result Bool := do
  let b ← zTxPoW.getTxBody
  if b.txnDifficulty.isMore zBlock.getMagic.getMinTxPowWork then return false
  let maxsize := zBlock.getMagic.getMaxTxPoWSize.getAsLong
  if maxsize < zTxPoW.getSizeinBytesWithoutBlockTxns then return false
  if !RelayPolicy.checkMaxStateStoreSize b maxsize then return false
  if !(← checkMMR C zTipMMR A b) then return false
  (checkTxPoWScripts C parse b zBlock flags).1

/-- The loop over the listed `TxPoW`s. Each one comes with the flags it has by then. -/
def checkListed (zTipMMR : MMR) (A : Ancestry) (flags : ℕ → ScriptCache × ScriptCache) (zBlock : TxPoW) :
    ℕ → List TxPoW → Result Bool
  | _, [] => .ok true
  | i, txp :: txps => do
    if !(← checkTxPoWSimple C parse zTipMMR A (flags i) txp zBlock) then return false
    checkListed zTipMMR A flags zBlock (i + 1) txps

/-! ## The last part of `checkTxPoWBlock` -/

/-- Whether the root is the one that the block says. -/
def rootMatches (zTxPoW : TxPoW) : Option MMRData → Bool
  | none => false
  | some root =>
    root.data.isEqual zTxPoW.header.mmrRoot && root.value.isEqual zTxPoW.header.mmrTotal.val

/-- The root of the MMR that a copy of the block makes on the MMR of its parent. -/
def constructRoot (weightText : ℕ → Text) (isMega : Bool) (megaMMR : Option MMR) (parentMMR : MMR)
    (older : List MMR) (zTxPoW : TxPoW) (zTransactions : List TxPoW) : Result (Option MMRData) :=
  match zTxPoW.deepCopy C weightText with
  | none => undefinedBehaviour "null TxPoW"
  | some copy => do
    let txblock ← TxBlock.make C weightText isMega megaMMR parentMMR older copy zTransactions
    let node ← TxPoWTreeNode.constructMMR C txblock
    node.1.getRoot C

/-- **The checks of the coins, the transactions and the MMR**, after those that need the blocks before
only. Position 0 of the flags is the block itself. -/
def checkTransactions (weightText : ℕ → Text) (isMega : Bool) (megaMMR : Option MMR)
    (flags : ℕ → ScriptCache × ScriptCache) (parentMMR : MMR) (older : List MMR) (zTxPoW : TxPoW)
    (zTransactions : List TxPoW) : Result Bool := do
  let A : Ancestry := ⟨older, megaMMR⟩
  if !uniqueCoinIDs (coinIDs zTxPoW ++ zTransactions.flatMap coinIDs) then return false
  if zTxPoW.isTransaction then
    if !(← checkTxPoWSimple C parse parentMMR A (flags 0) zTxPoW zTxPoW) then return false
  if !(← checkListed C parse parentMMR A flags zTxPoW 1 zTransactions) then return false
  let root ← constructRoot C weightText isMega megaMMR parentMMR older zTxPoW zTransactions
  return rootMatches zTxPoW root

end Simple

end TxPoWChecker

end Minima
