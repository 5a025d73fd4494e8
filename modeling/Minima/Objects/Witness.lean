import Minima.Mmr.MMR
import Minima.Objects.Coin

/-! # `Witness`: the signatures, coin proofs and scripts of a transaction

A witness travels with every transaction and proves what the transaction only states: that its keys
signed it, that its input coins exist, and what the scripts behind their addresses are.

* **`CoinProof.readFromStream`** — a malformed coin proof becomes a null pointer, and reading goes on
  behind it.
* **`ScriptProof.calculateAddress`** — the address of a script is the root of its proof. -/

namespace Minima

/-! ## Signatures -/

/-- `SignatureProof`: a one-time public key, its signature, and the proof that the key belongs to
the root key. -/
structure SignatureProof where
  publicKey : MiniData
  signature : MiniData
  proof : MMRProof
  deriving DecidableEq

namespace SignatureProof

/-- `getRootPublicKey`. -/
def getRootPublicKey (C : Crypto) (s : SignatureProof) : Result MiniData := do
  let pubentry ← MMRData.createMMRDataLeafNode C (.ok s.publicKey.writeDataStream) .zero
  let result ← s.proof.calculateProof C pubentry
  return result.data

/-- `writeDataStream`. -/
def writeDataStream (s : SignatureProof) : Result (List Byte) := do
  let proof ← s.proof.writeDataStream
  return s.publicKey.writeDataStream ++ s.signature.writeDataStream ++ proof

/-- `readDataStream`. -/
def readDataStream : Reader SignatureProof := do
  let publicKey ← MiniData.readDataStream
  let signature ← MiniData.readDataStream
  let proof ← MMRProof.readDataStream
  return ⟨publicKey, signature, proof⟩

end SignatureProof

/-- `Signature`: a chain of signature proofs, each key signed by the one before. -/
structure Signature where
  signatures : List SignatureProof
  deriving DecidableEq

namespace Signature

/-- `getRootPublicKey`: the root key of the first proof. -/
def getRootPublicKey (C : Crypto) (s : Signature) : Result MiniData :=
  match s.signatures with
  | [] => throwException "Signature::getRootPublicKey: no signature proofs available"
  | sig :: _ => sig.getRootPublicKey C

/-- `writeDataStream`. -/
def writeDataStream (s : Signature) : Result (List Byte) := do
  let sigs ← Coin.writeAll SignatureProof.writeDataStream s.signatures
  return (MiniNumber.ofInt s.signatures.length).writeDataStream ++ sigs

/-- `readDataStream`. -/
def readDataStream : Reader Signature := do
  let len ← MiniNumber.getAsInt <$> MiniNumber.readDataStream
  let signatures ← Reader.readVector SignatureProof.readDataStream len
  return ⟨signatures⟩

end Signature

/-! ## Coin proofs -/

/-- `CoinProof`: a coin and the proof that it is in the MMR. -/
structure CoinProof where
  coin : Coin
  proof : MMRProof
  deriving DecidableEq

namespace CoinProof

/-- `getMMRData`: the leaf of the coin. -/
def getMMRData (C : Crypto) (p : CoinProof) : Result MMRData :=
  MMRData.createMMRDataLeafNode C p.coin.writeDataStream p.coin.amount.val

/-- `writeDataStream`. -/
def writeDataStream (p : CoinProof) : Result (List Byte) := do
  let coin ← p.coin.writeDataStream
  let proof ← p.proof.writeDataStream
  return coin ++ proof

/-- `readDataStream`. -/
def readDataStream : Reader CoinProof := do
  let coin ← Coin.readDataStream
  let proof ← MMRProof.readDataStream
  return ⟨coin, proof⟩

/-- `ReadFromStream`: an exception is logged, and a null pointer returned in place of the proof. The
stream stays where the exception left it. -/
def readFromStream : Reader (Option CoinProof) := fun s =>
  match readDataStream s with
  | (.ok cp, rest) => (.ok (some cp), rest)
  | (.error (.exception _), rest) => (.ok none, rest)
  | (.error (.undefined what), rest) => (undefinedBehaviour what, rest)

end CoinProof

/-! ## Script proofs -/

/-- `ScriptProof`: a script, the proof that it belongs to its address, and that address, which the
constructors and the reader calculate. -/
structure ScriptProof where
  script : Text
  proof : MMRProof
  address : MiniData
  deriving DecidableEq

namespace ScriptProof

/-- `calculateAddress`. -/
def calculateAddress (C : Crypto) (script : Text) (proof : MMRProof) : Result MiniData := do
  let scriptdata ← MMRData.createMMRDataLeafNode C (.ok (MiniData.mk script).writeDataStream) .zero
  let root ← proof.calculateProof C scriptdata
  return root.data

/-- `writeDataStream`. -/
def writeDataStream (p : ScriptProof) : Result (List Byte) := do
  let proof ← p.proof.writeDataStream
  return (MiniData.mk p.script).writeDataStream ++ proof

/-- `readDataStream`. -/
def readDataStream (C : Crypto) : Reader ScriptProof := do
  let script ← MiniData.readDataStream
  let proof ← MMRProof.readDataStream
  let address ← Reader.lift (calculateAddress C script.bytes proof)
  return ⟨script.bytes, proof, address⟩

end ScriptProof

/-! ## Witnesses -/

/-- `Witness`. A coin proof may be a null pointer. -/
structure Witness where
  signatureProofs : List Signature
  coinProofs : List (Option CoinProof)
  scriptProofs : List ScriptProof
  deriving DecidableEq

namespace Witness

/-- The witness of the default constructor. -/
def empty : Witness := ⟨[], [], []⟩

/-- `getAllSignatureKeys`. -/
def getAllSignatureKeys (C : Crypto) (w : Witness) : Result (List MiniData) :=
  w.signatureProofs.mapM (Signature.getRootPublicKey C)

/-- `getScript`: the first script with the address. -/
def getScript (w : Witness) (zAddress : MiniData) : Option ScriptProof :=
  w.scriptProofs.find? fun p => p.address.isEqual zAddress

/-- Write a coin proof through its pointer. -/
def writeCoinProof : Option CoinProof → Result (List Byte)
  | none => undefinedBehaviour "null CoinProof"
  | some cp => cp.writeDataStream

/-- `writeDataStream`. -/
def writeDataStream (w : Witness) : Result (List Byte) := do
  let signatures ← Coin.writeAll Signature.writeDataStream w.signatureProofs
  let coinproofs ← Coin.writeAll writeCoinProof w.coinProofs
  let scripts ← Coin.writeAll ScriptProof.writeDataStream w.scriptProofs
  return (MiniNumber.ofInt w.signatureProofs.length).writeDataStream ++ signatures ++
    (MiniNumber.ofInt w.coinProofs.length).writeDataStream ++ coinproofs ++
    (MiniNumber.ofInt w.scriptProofs.length).writeDataStream ++ scripts

/-- `readDataStream`. -/
def readDataStream (C : Crypto) : Reader Witness := do
  let slen ← MiniNumber.getAsInt <$> MiniNumber.readDataStream
  let signatureProofs ← Reader.readVector Signature.readDataStream slen
  let clen ← MiniNumber.getAsInt <$> MiniNumber.readDataStream
  let coinProofs ← Reader.readVector CoinProof.readFromStream clen
  let plen ← MiniNumber.getAsInt <$> MiniNumber.readDataStream
  let scriptProofs ← Reader.readVector (ScriptProof.readDataStream C) plen
  return ⟨signatureProofs, coinProofs, scriptProofs⟩

end Witness

end Minima
