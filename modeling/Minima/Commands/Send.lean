import Minima.Commands.Amounts
import Minima.Commands.CoinSelection
import Minima.Objects.Address

/-! # `send`: from the recipients to the transaction that is signed

The command adds up what the recipients are to get, takes coins until they cover it, and makes outputs:
for each recipient the amount in equal parts and what is left of it, and the change. A token is sent in
its own units; its coins have amounts in Minima, so each amount is converted on the way.

* **`gatherCoins`** — the inputs.
* **`recipientOutputs`**, **`changeOutput`** — the outputs.
* **`runCommand`** — the command up to the point where it signs. -/

namespace Minima

/-- `MiniNumber::floor`: `setScale_impl` to no places, rounding down, and then the limits. -/
def MiniNumber.floor (x : MiniNumber) : Result MiniNumber :=
  let res : MiniNumber :=
    if x.scale = 0 then x
    else if x.scale < 0 then normalizeZero ⟨x.unscaled * pow10 (-x.scale).toNat, 0⟩
    else
      let divisor := pow10 x.scale.toNat
      let q := x.unscaled.tdiv divisor
      normalizeZero ⟨if x.unscaled.tmod divisor ≠ 0 ∧ x.unscaled < 0 then q - 1 else q, 0⟩
  checkLimits (applyMathContextDefault res)

/-- A copy of a token: written and read back. -/
def Token.copy (t : Token) : Result Token := do
  let tokmd ← t.writeDataStream
  (Token.readDataStream tokmd).1

namespace Send

/-! ## Parameters -/

/-- `AddressAmount`. -/
structure AddressAmount where
  mAddress : MiniData
  mAmount : StoredNumber
  deriving DecidableEq

/-- The strings of `multi`, or `address` and `amount`. -/
inductive Recipients where
  | multi (sendtos : List Text)
  | single (sendaddress : MiniData) (sendamount : StoredNumber)

/-- The parameters of the command that decide on the transaction. -/
structure Params where
  recipients : Recipients
  tokenid : Text
  storestate : Bool
  burn : StoredNumber
  split : StoredNumber
  coinage : StoredNumber
  usepubkey : Text
  fromaddress : MiniData

/-- The settings of the node: `GeneralParams` and `GlobalParams`. -/
structure Settings where
  maxSplitCoins : ℕ
  maxRelayOutputCoins : ℕ
  minimaConfirmDepth : MiniNumber
  minimaMMRProofHistory : MiniNumber
  split_le : maxSplitCoins ≤ 20

/-- The settings that a node starts with. -/
def Settings.standard : Settings := ⟨20, 32, .ofInt 3, .ofInt 256, by decide⟩

/-- What the command asks of the node: the tip, the coins that the search finds, the blocks of the tree
that are left, and the wallet. -/
structure Node where
  sort : CoinSort
  use : CoinsInUse
  tipNumber : StoredNumber
  foundcoins : List Coin
  hasPastNode : MiniNumber → Bool
  /-- `getScriptFromAddress`: the public key of the row. -/
  scriptKey : Text → Option Text
  /-- `getDefaultAddress`: the address and the public key of the row. -/
  defaultAddress : Option (Text × Text)
  isBaseSeedAvailable : Bool
  checkKey : Text → Bool

/-- `tokenid == "0x00"`. -/
def isMinima (tokenid : Text) : Bool := tokenid == MiniNumber.ascii "0x00"

/-- One entry of `multi`, an address and an amount with a colon between them. -/
def parseSendTo (C : Crypto) (sendto : Text) : Result AddressAmount := do
  if 58 ∉ sendto then throwException "Invalid multi entry (missing ':'): "
  let address := sendto.takeWhile (· ≠ 58)
  let amountstr := (sendto.dropWhile (· ≠ 58)).tail
  let addr ←
    if [109, 120] <+: address.map BaseConverter.toLower then Address.convertMinimaAddress C address
    else MiniData.ofHex address
  let amount ← MiniNumber.ofText amountstr
  let mAmount ← amount.stored
  return ⟨addr, mAmount⟩

/-- The recipients and the total of their amounts. -/
def recipientsOf (C : Crypto) : Recipients → Result (List AddressAmount × MiniNumber)
  | .multi sendtos =>
    sendtos.foldlM (fun (recipients, totalamount) sendto => do
      let recipient ← parseSendTo C sendto
      let totalamount ← totalamount.add recipient.mAmount.val
      return (recipients ++ [recipient], totalamount)) ([], .zero)
  | .single sendaddress sendamount => .ok ([⟨sendaddress, sendamount⟩], sendamount.val)

/-- The burn is part of the total when Minima is sent. -/
def addBurn (minima : Bool) (totalamount burn : MiniNumber) : Result MiniNumber :=
  if minima then totalamount.add burn else .ok totalamount

/-- The number of parts: whole, from one up to the maximum. -/
def splitOf (P : Settings) (zSplit : MiniNumber) : Result MiniNumber := do
  let split ← zSplit.floor
  if split.isLess .one || split.isMore (.ofInt P.maxSplitCoins) then
    throwException "Split must be whole number from 1 to "
  return split

/-! ## Inputs -/

/-- The amount of a coin in the units that are sent, and the token so far. -/
def coinAmount (minima : Bool) (token : Option Token) (coin : Coin) : Result (Option Token × MiniNumber) :=
  if minima then .ok (token, coin.amount.val)
  else match coin.token with
    | none => undefinedBehaviour "null Token"
    | some cointoken => do
      let amt ← cointoken.getScaledTokenAmount coin.amount.val
      return (token <|> some cointoken, amt)

/-- The loop that adds coins until they cover the total: the amount so far, in the units of the token,
the coins, and the token of the first of them. -/
def gatherCoins (use : CoinsInUse) (minima : Bool) (totalamount : MiniNumber) :
    List Coin → MiniNumber → List Coin → Option Token → Result (MiniNumber × List Coin × Option Token)
  | [], currentamount, currentcoins, token => .ok (currentamount, currentcoins, token)
  | coin :: relcoins, currentamount, currentcoins, token => do
    if use.checkForMiningCoin coin.coinID.to0xString then
      gatherCoins use minima totalamount relcoins currentamount currentcoins token
    else if use.checkMempoolCoins coin.coinID then
      gatherCoins use minima totalamount relcoins currentamount currentcoins token
    else
      let (token, amt) ← coinAmount minima token coin
      let currentamount ← currentamount.add amt
      if currentamount.isMoreEqual totalamount then
        return (currentamount, currentcoins ++ [coin], token)
      else gatherCoins use minima totalamount relcoins currentamount (currentcoins ++ [coin]) token

/-- The amount that the coins are selected for, in Minima. -/
def findAmount (minima : Bool) (relcoins : List Coin) (totalamount : MiniNumber) : Result MiniNumber :=
  if minima then .ok totalamount
  else match relcoins.head?.bind Coin.token with
    | none => throwException "Token information missing for selected coin"
    | some ftok => ftok.getScaledMinimaAmount totalamount

/-- The coins that the inputs are taken from: those found that are old enough, in the order of
`selectCoins` or the best of them. -/
def relevantCoins (P : Settings) (node : Node) (p : Params) (totalamount : MiniNumber) :
    Result (List Coin) := do
  if p.coinage.val.isLess P.minimaConfirmDepth then throwException "Coinage MUST be >= "
  let mincoinblock ← node.tipNumber.val.sub p.coinage.val
  let relcoins := node.foundcoins.filter fun relc => relc.blockCreated.val.isLessEqual mincoinblock
  if relcoins.isEmpty then throwException "No Coins of tokenid:"
  let findamount ← findAmount (isMinima p.tokenid) relcoins totalamount
  return selectCoins node.sort node.use relcoins findamount

/-- The newest block of the inputs. -/
def minBlock (currentcoins : List Coin) : MiniNumber :=
  currentcoins.foldl
    (fun minblock input => if input.blockCreated.val.isMore minblock then input.blockCreated.val else minblock)
    .zero

/-- The block for the MMR proofs has to be in the tree. -/
def checkPastNode (P : Settings) (node : Node) (currentcoins : List Coin) : Result Unit := do
  let blockdiff ← node.tipNumber.val.sub (minBlock currentcoins)
  let blockdiff := if blockdiff.isMore P.minimaMMRProofHistory then P.minimaMMRProofHistory else blockdiff
  let past ← node.tipNumber.val.sub blockdiff
  if !node.hasPastNode past then throwException "Not enough blocks in chain to make valid MMR Proofs.."

/-- The public keys that sign, each once. -/
def requiredKeys (node : Node) (currentcoins : List Coin) : Result (List Text) :=
  currentcoins.foldlM (fun reqsigs input =>
    match node.scriptKey (addressText input) with
    | none => throwException "SERIOUS ERROR script missing for simple address : "
    | some pubkey => .ok (if pubkey ∈ reqsigs then reqsigs else reqsigs ++ [pubkey])) []

/-- The total has to be an amount of Minima, or one that the token can stand for. -/
def checkTotal (minima : Bool) (token : Option Token) (totalamount : MiniNumber) : Result Unit := do
  if minima then
    if !totalamount.isValidMinimaValue then throwException "Invalid Minima amount to send.. "
  else match token with
    | none => throwException "Token not available for scaling"
    | some token =>
      let tokenamount ← token.getScaledMinimaAmount totalamount
      let prectest ← token.getScaledTokenAmount tokenamount
      if !prectest.isEqual totalamount then throwException "Invalid Token amount to send.. "

/-! ## Outputs -/

/-- An output of the transaction. -/
def output (tokenid : Text) (token : Option Token) (address : MiniData) (amount : MiniNumber)
    (storestate : Bool) : Result Coin := do
  let amount ← amount.stored
  let coin : Coin :=
    ⟨Coin.COINID_OUTPUT, address, amount, Token.TOKENID_MINIMA, storestate, [], default, 0,
      ⟨.zero, MiniNumber.canonical_zero⟩, none⟩
  if isMinima tokenid then return coin
  let tokenID ← MiniData.ofHex tokenid
  match token with
  | none => undefinedBehaviour "null Token"
  | some token => do
    let tokcp ← token.copy
    return { coin with tokenID, token := some tokcp }

/-- An amount in Minima: the conversion from the units of a token. -/
def toMinima (tokenid : Text) (token : Option Token) (amount : MiniNumber) : Result MiniNumber :=
  if isMinima tokenid then .ok amount
  else match token with
    | none => undefinedBehaviour "null Token"
    | some token => token.getScaledMinimaAmount amount

/-- The loop over the parts of one recipient: the outputs and the sum of their amounts. -/
def splitLoop (make : MiniNumber → Result Coin) (splitamount : MiniNumber) :
    ℕ → Result (List Coin × MiniNumber)
  | 0 => .ok ([], .zero)
  | i + 1 => do
    let (outputs, currenttotal) ← splitLoop make splitamount i
    let recipient ← make splitamount
    let currenttotal ← currenttotal.add splitamount
    return (outputs ++ [recipient], currenttotal)

/-- The outputs of one recipient: its amount in `split` equal parts, and one for the remainder. -/
def recipientOutputs (p : Params) (split : MiniNumber) (token : Option Token) (user : AddressAmount) :
    Result (List Coin) := do
  let usertotal ← toMinima p.tokenid token user.mAmount.val
  let splitamount ← usertotal.div split
  if splitamount.isLessEqual .zero then
    throwException "Cannot have ZERO output - output is too small for this user.. "
  let make amount := output p.tokenid token user.mAddress amount p.storestate
  let (outputs, currenttotal) ← splitLoop make splitamount split.getAsInt.toNat
  let currentdiff ← usertotal.sub currenttotal
  if currentdiff.isMore .zero then
    let remaincoin ← make currentdiff
    return outputs ++ [remaincoin]
  return outputs

/-- The change, to the given address or to one of the wallet. -/
def changeOutput (p : Params) (node : Node) (token : Option Token) (change : MiniNumber) :
    Result (Option Coin) := do
  if change.isMore .zero then
    match node.defaultAddress with
    | none => undefinedBehaviour "null ScriptRow"
    | some (address, publicKey) =>
      if node.isBaseSeedAvailable && !node.checkKey publicKey then
        throwException "[!] SERIOUS ERROR - INCORRECT Public key : "
      let newaddress ← MiniData.ofHex address
      let chgaddress := if p.fromaddress.getLength > 0 then p.fromaddress else newaddress
      let changeamount ← toMinima p.tokenid token change
      let changecoin ← output p.tokenid token chgaddress changeamount false
      return some changecoin
  else return none

/-! ## The command -/

/-- The transaction as it is signed: its inputs, the outputs of each recipient in turn, the change, and
the keys that sign. -/
structure Built where
  inputs : List Coin
  paid : List (List Coin)
  change : Option Coin
  reqsigs : List Text

/-- All outputs in their order. -/
def Built.outputs (b : Built) : List Coin := b.paid.flatten ++ b.change.toList

/-- How the command goes on: with a message that it cannot send, or to the signatures. -/
inductive Outcome where
  | message (text : String)
  | signing (b : Built)

/-- The part of `runCommand` behind the selection of the inputs. -/
def buildTransaction (P : Settings) (node : Node) (p : Params) (recipients : List AddressAmount)
    (split totalamount currentamount : MiniNumber) (currentcoins : List Coin) (token : Option Token) :
    Result Built := do
  let change ← currentamount.sub totalamount
  checkPastNode P node currentcoins
  let reqsigs ← requiredKeys node currentcoins
  let reqsigs := if p.usepubkey.isEmpty then reqsigs else [p.usepubkey]
  checkTotal (isMinima p.tokenid) token totalamount
  let paid ← recipients.mapM (recipientOutputs p split token)
  let changecoin ← changeOutput p node token change
  let b : Built := ⟨currentcoins, paid, changecoin, reqsigs⟩
  if b.outputs.length > P.maxRelayOutputCoins then throwException "Too many outputs "
  return b

/-- `runCommand` up to the signatures. -/
def runCommand (C : Crypto) (P : Settings) (node : Node) (p : Params) : Result Outcome := do
  let (recipients, totalamount) ← recipientsOf C p.recipients
  if p.burn.val.isLess .zero then throwException "Cannot have negative burn "
  let split ← splitOf P p.split.val
  let totalamount ← addBurn (isMinima p.tokenid) totalamount p.burn.val
  let relcoins ← relevantCoins P node p totalamount
  let (currentamount, currentcoins, token) ←
    gatherCoins node.use (isMinima p.tokenid) totalamount relcoins .zero [] none
  if token.any fun token => token.tokenScript ≠ MiniNumber.ascii "RETURN TRUE" then
    return .message "Token script is not simple : "
  if currentamount.isLess totalamount then return .message "Insufficient funds.. you only have "
  let b ← buildTransaction P node p recipients split totalamount currentamount currentcoins token
  return .signing b

end Send

end Minima
