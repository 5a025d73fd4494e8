import Minima.Objects.Coin

/-! # `Magic` and `TxHeader`

The header of a `TxPoW` holds everything its id commits to: the proof-of-work fields, the super
parents (the last block of every super level), the `Magic` limits and the hash of the body. The
super parents are written run-length encoded.

* **`TxHeader.writeDataStream`**, **`TxHeader.readDataStream`** — the streams.
* **`TxHeader.runs`** — the runs of equal super parents. -/

namespace Minima

/-- `GlobalParams::MINIMA_CASCADE_LEVELS`, the same on the test net. -/
def cascadeLevels : ℕ := 32

/-! ## The limits of a block -/

/-- `Magic`: the current limits of the chain, and those the block's maker asks for. -/
structure Magic where
  currentMaxTxPoWSize : StoredNumber
  currentMaxKISSVMOps : StoredNumber
  currentMaxTxnPerBlock : StoredNumber
  currentMinTxPoWWork : MiniData
  desiredMaxTxPoWSize : StoredNumber
  desiredMaxKISSVMOps : StoredNumber
  desiredMaxTxnPerBlock : StoredNumber
  desiredMinTxPoWWork : MiniData
  deriving DecidableEq

namespace Magic

/-- `checkSame`: the current limits only. -/
def checkSame (m zMagic : Magic) : Bool :=
  m.currentMaxTxPoWSize.val.isEqual zMagic.currentMaxTxPoWSize.val &&
    m.currentMaxKISSVMOps.val.isEqual zMagic.currentMaxKISSVMOps.val &&
    m.currentMaxTxnPerBlock.val.isEqual zMagic.currentMaxTxnPerBlock.val &&
    m.currentMinTxPoWWork.isEqual zMagic.currentMinTxPoWWork

/-- `getMaxTxPoWSize`. -/
def getMaxTxPoWSize (m : Magic) : MiniNumber := m.currentMaxTxPoWSize.val

/-- `getMaxKISSOps`. -/
def getMaxKISSOps (m : Magic) : MiniNumber := m.currentMaxKISSVMOps.val

/-- `getMaxNumTxns`. -/
def getMaxNumTxns (m : Magic) : MiniNumber := m.currentMaxTxnPerBlock.val

/-- `getMinTxPowWork`. -/
def getMinTxPowWork (m : Magic) : MiniData := m.currentMinTxPoWWork

/-- `writeDataStream`. -/
def writeDataStream (m : Magic) : List Byte :=
  m.currentMaxTxPoWSize.val.writeDataStream ++ m.currentMaxKISSVMOps.val.writeDataStream ++
    m.currentMaxTxnPerBlock.val.writeDataStream ++ m.currentMinTxPoWWork.writeDataStream ++
    m.desiredMaxTxPoWSize.val.writeDataStream ++ m.desiredMaxKISSVMOps.val.writeDataStream ++
    m.desiredMaxTxnPerBlock.val.writeDataStream ++ m.desiredMinTxPoWWork.writeDataStream

/-- `readDataStream`. -/
def readDataStream : Reader Magic := do
  let currentMaxTxPoWSize ← StoredNumber.read
  let currentMaxKISSVMOps ← StoredNumber.read
  let currentMaxTxnPerBlock ← StoredNumber.read
  let currentMinTxPoWWork ← MiniData.readDataStream
  let desiredMaxTxPoWSize ← StoredNumber.read
  let desiredMaxKISSVMOps ← StoredNumber.read
  let desiredMaxTxnPerBlock ← StoredNumber.read
  let desiredMinTxPoWWork ← MiniData.readDataStream
  return ⟨currentMaxTxPoWSize, currentMaxKISSVMOps, currentMaxTxnPerBlock, currentMinTxPoWWork,
    desiredMaxTxPoWSize, desiredMaxKISSVMOps, desiredMaxTxnPerBlock, desiredMinTxPoWWork⟩

end Magic

/-! ## Headers -/

/-- `TxHeader`. The vector of super parents is resized to the number of levels by the constructor
and by the reader, so it has one entry for each. -/
structure TxHeader where
  nonce : StoredNumber
  chainID : MiniData
  timeMilli : StoredNumber
  blockNumber : StoredNumber
  blockDifficulty : MiniData
  superParents : Fin cascadeLevels → MiniData
  mmrRoot : MiniData
  mmrTotal : StoredNumber
  magic : Magic
  customHash : MiniData
  txBodyHash : MiniData
  deriving DecidableEq

namespace TxHeader

/-- The runs of equal values of a list, each with its length. -/
def runs : List MiniData → List (ℕ × MiniData)
  | [] => []
  | d :: ds =>
    match runs ds with
    | [] => [(1, d)]
    | (count, sparent) :: rest =>
      if d.isEqual sparent then (count + 1, sparent) :: rest else (1, d) :: (count, sparent) :: rest

/-- One run: the count in a byte, then the super parent as a hash. -/
def writeRun (run : ℕ × MiniData) : Result (List Byte) := do
  let sparent ← run.2.writeHashToStream
  return UInt8.ofNat run.1 :: sparent

/-- `writeDataStream`. -/
def writeDataStream (h : TxHeader) : Result (List Byte) := do
  let supers ← Coin.writeAll writeRun (runs (List.ofFn h.superParents))
  let mmrRoot ← h.mmrRoot.writeHashToStream
  let customHash ← h.customHash.writeHashToStream
  let txBodyHash ← h.txBodyHash.writeHashToStream
  return h.nonce.val.writeDataStream ++ h.chainID.writeDataStream ++
    h.timeMilli.val.writeDataStream ++ h.blockNumber.val.writeDataStream ++
    h.blockDifficulty.writeDataStream ++ supers ++ mmrRoot ++ h.mmrTotal.val.writeDataStream ++
    h.magic.writeDataStream ++ customHash ++ txBodyHash

/-- The `while` loop over the runs, with the super parents still to come. A run of no entries is
skipped, so the fuel bounds the number of runs: the stream cannot hold more runs than bytes. -/
def readRuns : ℕ → ℕ → Reader (List MiniData)
  | _, 0 => pure []
  | 0, _ + 1 => Reader.throwing "MiniByte::readDataStream failed"
  | fuel + 1, todo + 1 => do
    let len ← Reader.readByte
    let sup ← MiniData.readHashFromStream
    if todo + 1 < len.toNat then Reader.throwing "SuperParents overflow during RLE decode"
    else
      let rest ← readRuns fuel (todo + 1 - len.toNat)
      return List.replicate len.toNat sup ++ rest

theorem length_of_readRuns {fuel todo : ℕ} {s rest : List Byte} {sups : List MiniData}
    (h : readRuns fuel todo s = (.ok sups, rest)) : sups.length = todo := by
  induction fuel generalizing todo s rest sups with
  | zero =>
    cases todo with
    | zero =>
      cases h
      rfl
    | succ todo => simp [readRuns, Reader.throwing] at h
  | succ fuel ih =>
    cases todo with
    | zero =>
      cases h
      rfl
    | succ todo =>
      rw [readRuns] at h
      obtain ⟨len, s1, -, h⟩ := Reader.bind_eq_ok.mp h
      obtain ⟨sup, s2, -, h⟩ := Reader.bind_eq_ok.mp h
      obtain ⟨hlen, h⟩ := Reader.guard_eq_ok.mp h
      obtain ⟨more, s4, hmore, h⟩ := Reader.bind_eq_ok.mp h
      cases h
      rw [List.length_append, List.length_replicate, ih hmore]
      omega

/-- The run-length decoder of `readDataStream`: one super parent for every level. -/
def readSuperParents : Reader (Fin cascadeLevels → MiniData) := fun s =>
  match h : readRuns s.length cascadeLevels s with
  | (.ok sups, rest) => (.ok fun i => sups.get (i.cast (length_of_readRuns h).symm), rest)
  | (.error e, rest) => (.error e, rest)

/-- `readDataStream`. -/
def readDataStream : Reader TxHeader := do
  let nonce ← StoredNumber.read
  let chainID ← MiniData.readDataStream
  let timeMilli ← StoredNumber.read
  let blockNumber ← StoredNumber.read
  let blockDifficulty ← MiniData.readDataStream
  let superParents ← readSuperParents
  let mmrRoot ← MiniData.readHashFromStream
  let mmrTotal ← StoredNumber.read
  let magic ← Magic.readDataStream
  let customHash ← MiniData.readHashFromStream
  let txBodyHash ← MiniData.readHashFromStream
  return ⟨nonce, chainID, timeMilli, blockNumber, blockDifficulty, superParents, mmrRoot, mmrTotal,
    magic, customHash, txBodyHash⟩

end TxHeader

end Minima
