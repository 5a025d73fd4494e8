import Minima.Base.NumberText
import Minima.Base.Reader
import Minima.Mmr.Entry

/-! # `Coin`, `Token` and `StateVariable`

The data of a coin, as transactions, witnesses and blocks carry it, and how it is written to a
stream. Numbers that are members of an object were assigned to it, which applies the limits of
`MiniNumber`, so they are canonical by type. -/

namespace Minima

/-- A `MiniNumber` held in a member: the assignment applied the limits. -/
abbrev StoredNumber := { x : MiniNumber // x.Canonical }

/-- The assignment to a member. -/
def MiniNumber.stored (x : MiniNumber) : Result StoredNumber :=
  match h : x.copy with
  | .ok y => .ok ⟨y, MiniNumber.copy_canonical h⟩
  | .error e => .error e

/-- Read a number into a member. -/
def StoredNumber.read : Reader StoredNumber := do
  let x ← MiniNumber.readDataStream
  Reader.lift x.stored

/-! ## State variables -/

/-- `StateVariable`: a port, a type and the data as text. -/
structure StateVariable where
  port : Byte
  type : Byte
  data : Text
  deriving DecidableEq

namespace StateVariable

def STATETYPE_HEX : Byte := 1

def STATETYPE_NUMBER : Byte := 2

def STATETYPE_STRING : Byte := 4

def STATETYPE_BOOL : Byte := 8

/-- `writeDataStream`: port and type, then the data in the format of its type. A number is parsed
back from its text, which throws when it is outside the limits. -/
def writeDataStream (sv : StateVariable) : Result (List Byte) := do
  let body ←
    if sv.type = STATETYPE_BOOL then
      pure [if sv.data = MiniNumber.ascii "TRUE" then 1 else 0]
    else if sv.type = STATETYPE_HEX then do
      let hexdata ← MiniData.ofHex sv.data
      pure hexdata.writeDataStream
    else if sv.type = STATETYPE_NUMBER then do
      let number ← MiniNumber.ofText sv.data
      pure number.writeDataStream
    else if sv.type = STATETYPE_STRING then pure (MiniData.mk sv.data).writeDataStream
    else throwException "Invalid StateVariable type during write"
  return sv.port :: sv.type :: body

/-- `readDataStream`: the data as text again. -/
def readDataStream : Reader StateVariable := do
  let port ← Reader.readByte
  let type ← Reader.readByte
  let data ←
    if type = STATETYPE_BOOL then do
      let booleanValue ← Reader.readByte
      pure (if booleanValue ≠ 0 then MiniNumber.ascii "TRUE" else MiniNumber.ascii "FALSE")
    else if type = STATETYPE_HEX then do
      let hexdata ← MiniData.readDataStream
      pure hexdata.to0xString
    else if type = STATETYPE_NUMBER then do
      let number ← MiniNumber.readDataStream
      pure number.toText
    else if type = STATETYPE_STRING then MiniData.bytes <$> MiniData.readDataStream
    else Reader.throwing "Invalid StateVariable type during read"
  return ⟨port, type, data⟩

end StateVariable

/-! ## Tokens -/

/-- `Token`, without the token id, which its constructors calculate from the rest. -/
structure Token where
  coinID : MiniData
  tokenScale : StoredNumber
  tokenMinimaAmount : StoredNumber
  tokenName : Text
  tokenScript : Text
  tokenCreated : StoredNumber
  deriving DecidableEq

namespace Token

/-- `TOKENID_CREATE`: marks an output that creates a token. -/
def TOKENID_CREATE : MiniData := ⟨[0xFF]⟩

/-- `TOKENID_MINIMA`. -/
def TOKENID_MINIMA : MiniData := ⟨[0x00]⟩

/-- `writeDataStream`. -/
def writeDataStream (t : Token) : Result (List Byte) := do
  let coinid ← t.coinID.writeHashToStream
  return coinid ++ (MiniData.mk t.tokenScript).writeDataStream ++
    t.tokenScale.val.writeDataStream ++ t.tokenMinimaAmount.val.writeDataStream ++
    (MiniData.mk t.tokenName).writeDataStream ++ t.tokenCreated.val.writeDataStream

/-- `readDataStream`. -/
def readDataStream : Reader Token := do
  let coinID ← MiniData.readHashFromStream
  let tokenScript ← MiniData.readDataStream
  let tokenScale ← StoredNumber.read
  let tokenMinimaAmount ← StoredNumber.read
  let tokenName ← MiniData.readDataStream
  let tokenCreated ← StoredNumber.read
  return ⟨coinID, tokenScale, tokenMinimaAmount, tokenName.bytes, tokenScript.bytes, tokenCreated⟩

/-- `getTokenID`, as `calculateTokenID` leaves it: the hash of the encoding wrapped in a `MiniData`,
and none when the encoder throws. -/
def getTokenID (C : Crypto) (t : Token) : Option MiniData :=
  match t.writeDataStream with
  | .ok bytes => some (C.hashObject (.ok (MiniData.mk bytes).writeDataStream))
  | .error _ => none

end Token

/-! ## Coins -/

/-- `Coin`. -/
structure Coin where
  coinID : MiniData
  address : MiniData
  amount : StoredNumber
  tokenID : MiniData
  storeState : Bool
  state : List StateVariable
  mmrEntryNumber : MMREntryNumber
  spent : Byte
  blockCreated : StoredNumber
  token : Option Token
  deriving DecidableEq

namespace Coin

/-- `COINID_OUTPUT`. -/
def COINID_OUTPUT : MiniData := ⟨[0x00]⟩

/-- `COINID_ELTOO`: an input that floats to whichever coin the proof is for. -/
def COINID_ELTOO : MiniData := ⟨[0x01]⟩

/-- `getSpent`. -/
def getSpent (c : Coin) : Bool := c.spent != 0

/-- `setSpent`. -/
def setSpent (c : Coin) (b : Bool) : Coin := { c with spent := if b then 1 else 0 }

/-- The amount as a rational. -/
def value (c : Coin) : ℚ := c.amount.val.toRat

/-- The encodings of several objects one after the other. -/
def writeAll {α : Type} (write : α → Result (List Byte)) (xs : List α) : Result (List Byte) :=
  Crypto.concatAll (xs.map write)

/-- `writeDataStream`. -/
def writeDataStream (c : Coin) : Result (List Byte) := do
  let coinid ← c.coinID.writeHashToStream
  let address ← c.address.writeHashToStream
  let tokenid ← c.tokenID.writeHashToStream
  let state ← writeAll StateVariable.writeDataStream c.state
  let token ← match c.token with
    | none => pure [0]
    | some t => do
        let bytes ← t.writeDataStream
        pure (1 :: bytes)
  return coinid ++ address ++ c.amount.val.writeDataStream ++ tokenid ++
    [if c.storeState then 1 else 0] ++ c.mmrEntryNumber.writeDataStream ++ [c.spent] ++
    c.blockCreated.val.writeDataStream ++ (MiniNumber.ofInt c.state.length).writeDataStream ++
    state ++ token

/-- `readDataStream`. -/
def readDataStream : Reader Coin := do
  let coinID ← MiniData.readHashFromStream
  let address ← MiniData.readHashFromStream
  let amount ← StoredNumber.read
  let tokenID ← MiniData.readHashFromStream
  let storeState ← Reader.readByte
  let mmrEntryNumber ← MMREntryNumber.readDataStream
  let spent ← Reader.readByte
  let blockCreated ← StoredNumber.read
  let len ← MiniNumber.getAsInt <$> MiniNumber.readDataStream
  let state ← Reader.readVector StateVariable.readDataStream len
  let hasToken ← Reader.readByte
  let token ← if hasToken ≠ 0 then some <$> Token.readDataStream else pure none
  return ⟨coinID, address, amount, tokenID, storeState ≠ 0, state, mmrEntryNumber, spent,
    blockCreated, token⟩

/-- `deepCopy`: write the coin and read it back; a null pointer when either throws. -/
def deepCopy (c : Coin) : Option Coin :=
  match c.writeDataStream with
  | .error _ => none
  | .ok bytes =>
    match (readDataStream bytes).1 with
    | .error _ => none
    | .ok copy => some copy

/-- `getSameCoinWithCoinID`. -/
def getSameCoinWithCoinID (c : Coin) (zCoinID : MiniData) : Option Coin :=
  c.deepCopy.map fun copy => { copy with coinID := zCoinID }

@[simp] theorem getSpent_setSpent (c : Coin) (b : Bool) : (c.setSpent b).getSpent = b := by
  cases b <;> rfl

end Coin

end Minima
