import Minima.Base.DataOrder
import Minima.Objects.Transaction
import Minima.Objects.TxHeader
import Minima.Objects.Witness

/-! # `TxBody` and `TxPoW`

A `TxPoW` is a header, and a body with a transaction, a burn transaction, their witnesses and the
ids of the transactions of the block. Its id is the hash of the header; the id, the weight, the super
level and the size are calculated when it is read and kept beside it.

* **`TxPoW.calculateTXPOWID`** — everything that is derived from header and body.
* **`TxPoW.readDataStream`**, **`TxPoW.writeDataStream`** — the streams. -/

namespace Minima

open TwosComplement

/-! ## Bodies -/

/-- `TxBody`. -/
structure TxBody where
  prng : MiniData
  txnDifficulty : MiniData
  transaction : Transaction
  witness : Witness
  burnTransaction : Transaction
  burnWitness : Witness
  txPowIDList : List MiniData
  deriving DecidableEq

namespace TxBody

/-- `writeDataStream`. -/
def writeDataStream (b : TxBody) : Result (List Byte) := do
  let prng ← b.prng.writeHashToStream
  let transaction ← b.transaction.writeDataStream
  let witness ← b.witness.writeDataStream
  let burnTransaction ← b.burnTransaction.writeDataStream
  let burnWitness ← b.burnWitness.writeDataStream
  let txns ← Coin.writeAll MiniData.writeHashToStream b.txPowIDList
  return prng ++ b.txnDifficulty.writeDataStream ++ transaction ++ witness ++ burnTransaction ++
    burnWitness ++ (MiniNumber.ofInt b.txPowIDList.length).writeDataStream ++ txns

/-- `readDataStream`. -/
def readDataStream (C : Crypto) : Reader TxBody := do
  let prng ← MiniData.readHashFromStream
  let txnDifficulty ← MiniData.readDataStream
  let transaction ← Transaction.readDataStream
  let witness ← Witness.readDataStream C
  let burnTransaction ← Transaction.readDataStream
  let burnWitness ← Witness.readDataStream C
  let len ← MiniNumber.getAsInt <$> MiniNumber.readDataStream
  let txPowIDList ← Reader.readVector MiniData.readHashFromStream len
  return ⟨prng, txnDifficulty, transaction, witness, burnTransaction, burnWitness, txPowIDList⟩

end TxBody

/-! ## `TxPoW` -/

/-- `TxPoW`: header, body, and what `calculateTXPOWID` keeps beside them. The super level is clamped
to the levels of the cascade. -/
structure TxPoW where
  header : TxHeader
  body : Option TxBody
  txPoWID : MiniData
  blockWeight : Text
  isBlockPOW : Bool
  isTxnPOW : Bool
  superBlock : Fin cascadeLevels
  txPoWSize : ℕ
  deriving DecidableEq

namespace TxPoW

/-- `getTxPoWID`: the id as text. -/
def getTxPoWID (t : TxPoW) : Text := t.txPoWID.to0xString

/-- `getSuperLevel`. -/
def getSuperLevel (t : TxPoW) : ℕ := t.superBlock

/-- `getSuperParent`: throws out of range. -/
def getSuperParent (t : TxPoW) (zLevel : ℕ) : Result MiniData :=
  if h : zLevel < cascadeLevels then .ok (t.header.superParents ⟨zLevel, h⟩)
  else throwException "getSuperParent: level out of range"

/-- `getParentID`: the super parent of level zero. -/
def getParentID (t : TxPoW) : Result MiniData := t.getSuperParent 0

/-- `getBlockNumber`. -/
def getBlockNumber (t : TxPoW) : MiniNumber := t.header.blockNumber.val

/-- `getTimeMilli`. -/
def getTimeMilli (t : TxPoW) : MiniNumber := t.header.timeMilli.val

/-- `getBlockDifficulty`. -/
def getBlockDifficulty (t : TxPoW) : MiniData := t.header.blockDifficulty

/-- `getMagic`. -/
def getMagic (t : TxPoW) : Magic := t.header.magic

/-- `getTxBody`, as every access through a null body ends: it throws. -/
def getTxBody (t : TxPoW) : Result TxBody :=
  match t.body with
  | some b => .ok b
  | none => throwException "TxBody is null"

/-- `clearBody`. -/
def clearBody (t : TxPoW) : TxPoW := { t with body := none }

/-- `getBlockTransactions`: none without a body. -/
def getBlockTransactions (t : TxPoW) : List MiniData :=
  match t.body with
  | some b => b.txPowIDList
  | none => []

/-- `isTransaction`: one of the two transactions of the body is not empty. -/
def isTransaction (t : TxPoW) : Bool :=
  match t.body with
  | some b => !b.transaction.isEmpty || !b.burnTransaction.isEmpty
  | none => false

/-- `getSizeinBytesWithoutBlockTxns`. -/
def getSizeinBytesWithoutBlockTxns (t : TxPoW) : ℤ := t.txPoWSize - 32 * t.getBlockTransactions.length

/-! ### Streams -/

/-- Whether there is a body, then the body. -/
def writeBody : Option TxBody → Result (List Byte)
  | none => .ok [0]
  | some b => do
    let bytes ← b.writeDataStream
    return 1 :: bytes

/-- `writeDataStream`, from the members it writes. -/
def encode (header : TxHeader) (body : Option TxBody) : Result (List Byte) := do
  let hdr ← header.writeDataStream
  let bdy ← writeBody body
  return hdr ++ bdy

/-- `writeDataStream`. -/
def writeDataStream (t : TxPoW) : Result (List Byte) := encode t.header t.body

/-- A size as an `int`: its low 32 bits. -/
def intOf (n : ℕ) : ℤ := (n : ℤ).bmod (2 ^ 32)

/-- `TxPoW::getSuperLevel` of a difficulty and an id: how often the difficulty can be halved before
it is below the id. -/
def superLevelOf (zBlockDifficulty zTxPoWID : MiniData) : ℤ :=
  let blk := zBlockDifficulty.getDataValue
  let tid := zTxPoWID.getDataValue
  if tid = 0 then -1
  else
    let quot := blk / tid
    if quot = 0 then -1 else intOf (Nat.log2 quot)

/-- The clamp of `mSuperBlock` to the levels of the cascade. -/
def clampSuperBlock (level : ℤ) : Fin cascadeLevels :=
  ⟨(max 0 (min ((cascadeLevels : ℤ) - 1) level)).toNat, by
    unfold cascadeLevels
    omega⟩

section Calculate

-- `weightText d` is the text of `MAX_VAL / d` to seven digits, as the decimal type of the
-- multiprecision library prints it.
variable (C : Crypto) (weightText : ℕ → Text)

/-- `calculateTXPOWID` of a fresh object. An encoder that throws is caught, and leaves the size at
zero. -/
def calculateTXPOWID (header : TxHeader) (body : Option TxBody) : Result TxPoW := do
  let id := C.hashObject header.writeDataStream
  let isBlock := id.isLess header.blockDifficulty
  let difficulty := header.blockDifficulty.getDataValue
  let weight := if isBlock ∧ difficulty ≠ 0 then weightText difficulty else MiniNumber.ascii "0"
  let isTxn := match body with
    | some b => id.isLess b.txnDifficulty && !b.transaction.isEmpty
    | none => false
  let size ← match encode header body with
    | .ok bytes => .ok bytes.length
    | .error (.exception _) => .ok 0
    | .error (.undefined what) => undefinedBehaviour what
  return {
    header
    body
    txPoWID := id
    blockWeight := if weight.isEmpty then MiniNumber.ascii "0" else weight
    isBlockPOW := isBlock
    isTxnPOW := isTxn
    superBlock := clampSuperBlock (superLevelOf header.blockDifficulty id)
    txPoWSize := size }

/-- `readDataStream`. -/
def readDataStream : Reader TxPoW := do
  let header ← TxHeader.readDataStream
  let hasBody ← Reader.readByte
  let body ← if hasBody ≠ 0 then some <$> TxBody.readDataStream C else pure none
  Reader.lift (calculateTXPOWID C weightText header body)

end Calculate

/-! ### A block to run the model on -/

/-- A stored one. -/
def oneStored : StoredNumber := ⟨.one, MiniNumber.canonical_one⟩

/-- A header with a number, a time and super parents. -/
def sampleHeader (number time : StoredNumber) (superParents : Fin cascadeLevels → MiniData) :
    TxHeader where
  nonce := oneStored
  chainID := ⟨[0]⟩
  timeMilli := time
  blockNumber := number
  blockDifficulty := ⟨[255]⟩
  superParents := superParents
  mmrRoot := ⟨[0]⟩
  mmrTotal := oneStored
  magic := ⟨oneStored, oneStored, oneStored, ⟨[1]⟩, oneStored, oneStored, oneStored, ⟨[1]⟩⟩
  customHash := ⟨[0]⟩
  txBodyHash := ⟨[0]⟩

-- the numbers of the sample blocks, below what a number holds
theorem zero_lt_limit : 0 < 10 ^ 64 := by decide

theorem one_lt_limit : 1 < 10 ^ 64 := by decide

theorem two_lt_limit : 2 < 10 ^ 64 := by decide

theorem three_lt_limit : 3 < 10 ^ 64 := by decide

theorem four_lt_limit : 4 < 10 ^ 64 := by decide

theorem five_lt_limit : 5 < 10 ^ 64 := by decide

theorem six_lt_limit : 6 < 10 ^ 64 := by decide

/-- A block without a body, of weight one: its id, its number, its super level and parents. -/
def sample (id : List Byte) (number : ℕ) (superBlock : ℤ)
    (superParents : Fin cascadeLevels → MiniData) (h : number < 10 ^ 64 := by decide) : TxPoW where
  header := sampleHeader ⟨.ofInt number, MiniNumber.canonical_ofNat h⟩ oneStored superParents
  body := none
  txPoWID := ⟨id⟩
  blockWeight := MiniNumber.ascii "1"
  isBlockPOW := true
  isTxnPOW := false
  superBlock := clampSuperBlock superBlock
  txPoWSize := 0

end TxPoW

end Minima
