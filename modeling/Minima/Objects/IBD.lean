import Minima.Brains.SuperParents
import Minima.Objects.TxBlock

/-! # `IBD`: the initial block download

An `IBD` carries the blocks of a tree, root first, and the cascade behind them, if any. A node that
receives one checks it with `checkValidData`, and can weigh it against its own chain.

* **`IBD.readDataStream`** — the stream, with the cascade that survives its broken nodes.
* **`IBD.checkValidData`** — the blocks go on where the cascade ends.
* **`IBD.checkOurChainHeavier`** — the weights of two chains from their last common block on. -/

namespace Minima

/-! ## Streams of cascades -/

namespace Cascade

variable (C : Crypto) (weightText : ℕ → Text)

/-- `CascadeNode::readDataStream`: the block, and the level as an `int`. -/
def readNode : Reader (TxPoW × ℤ) := do
  let txpow ← TxPoW.readDataStream C weightText
  let level ← MiniNumber.getAsInt <$> MiniNumber.readDataStream
  return (txpow, level)

/-- The loop of `readDataStream` over the nodes: a node that throws is skipped where the stream then
stands, and the sixth of them ends the loop. -/
def readNodes : ℕ → ℕ → Reader (List (TxPoW × ℤ))
  | 0, _ => pure []
  | n + 1, failed => fun s =>
    match readNode C weightText s with
    | (.ok node, rest) => (do
        let nodes ← readNodes n failed
        return node :: nodes) rest
    | (.error (.exception _), rest) => if 5 < failed + 1 then (.ok [], rest) else readNodes n (failed + 1) rest
    | (.error (.undefined what), rest) => (undefinedBehaviour what, rest)

/-- A node as it was read. -/
def readNodeOf (node : TxPoW × ℤ) : CascadeNode := ⟨node.1, node.1.getSuperLevel, node.2.toNat, rfl⟩

/-- The nodes as they were read, tip first. The pass gives every node behind the tip its level; a tip
with a level below zero is refused here, where the source goes on with a fraction for its weight and
`checkCascadeCorrect` refuses it. -/
def ofNodes (levelNodes : ℕ) : List (TxPoW × ℤ) → Result Cascade
  | [] => .ok empty
  | tip :: nodes =>
    if tip.2 < 0 then throwException "Cascade does not start at level 0"
    else finalCascade levelNodes ⟨(tip :: nodes).map readNodeOf, .zero⟩

/-- **`readDataStream`**: the number of nodes, the nodes from the tip on, and a pass over them. -/
def readDataStream (levelNodes : ℕ) : Reader Cascade := do
  let len ← MiniNumber.getAsInt <$> MiniNumber.readDataStream
  if len < 0 then Reader.throwing "vector::reserve"
  else
    let nodes ← readNodes C weightText len.toNat 0
    Reader.lift (ofNodes levelNodes nodes)

/-- `CascadeNode::writeDataStream`. -/
def writeNode (node : CascadeNode) : Result (List Byte) := do
  let txpow ← node.txpow.writeDataStream
  return txpow ++ (MiniNumber.ofInt node.currentLevel).writeDataStream

/-- `writeDataStream`. -/
def writeDataStream (c : Cascade) : Result (List Byte) := do
  let nodes ← Coin.writeAll writeNode c.nodes
  return (MiniNumber.ofInt c.getLength).writeDataStream ++ nodes

/-- `deepCopy`: write the cascade and read it back. -/
def deepCopy (levelNodes : ℕ) (c : Cascade) : Result Cascade := do
  let bytes ← c.writeDataStream
  (readDataStream C weightText levelNodes bytes).1

end Cascade

/-! ## The download -/

/-- `IBD`. -/
structure IBD where
  cascade : Option Cascade
  txBlocks : List TxBlock

namespace IBD

/-- `readDataStream`. -/
def readDataStream (C : Crypto) (weightText : ℕ → Text) (levelNodes : ℕ) : Reader IBD := do
  let hasCascade ← Reader.readByte
  let cascade ←
    if hasCascade ≠ 0 then some <$> Cascade.readDataStream C weightText levelNodes else pure none
  let len ← MiniNumber.getAsInt <$> MiniNumber.readDataStream
  let txBlocks ← Reader.readMany (TxBlock.readDataStream C weightText) len.toNat
  return ⟨cascade, txBlocks⟩

/-- `writeDataStream`. -/
def writeDataStream (ibd : IBD) : Result (List Byte) := do
  let cascade ← match ibd.cascade with
    | some cascade => do
      let bytes ← cascade.writeDataStream
      pure (1 :: bytes)
    | none => pure [0]
  let blocks ← Coin.writeAll TxBlock.writeDataStream ibd.txBlocks
  return cascade ++ (MiniNumber.ofInt ibd.txBlocks.length).writeDataStream ++ blocks

/-- `hasCascadeWithBlocks`. -/
def hasCascadeWithBlocks (ibd : IBD) : Bool :=
  match ibd.cascade with
  | some cascade => 0 < cascade.getLength
  | none => false

/-- The checks of `checkValidData` on a cascade and its tip. -/
def checkCascade (ibd : IBD) (cascade : Cascade) (tip : CascadeNode) : Result Bool :=
  match ibd.txBlocks with
  | [] => .ok false
  | block :: _ => do
    let next ← tip.txpow.getBlockNumber.increment
    if !block.txpow.getBlockNumber.isEqual next then return false
    cascade.checkCascadeCorrect

/-- **`checkValidData`**: behind a cascade with blocks the tree goes on with the next number, and the
cascade is consistent. -/
def checkValidData (ibd : IBD) : Result Bool :=
  match ibd.cascade with
  | none => .ok true
  | some cascade =>
    match cascade.getTip with
    | none => .ok true
    | some tip => ibd.checkCascade cascade tip

/-! ### Weights -/

/-- What the weights are calculated from: the cascade, and the blocks of the tree, root first. -/
structure Chain where
  cascade : Option Cascade
  txpows : List TxPoW

/-- The chain of an `IBD`. -/
def chain (ibd : IBD) : Chain := ⟨ibd.cascade, ibd.txBlocks.map TxBlock.txpow⟩

/-- The total of the weights of blocks. -/
def addWeights (txpows : List TxPoW) : Result MiniNumber :=
  txpows.foldlM (fun total txpow => do
    let w ← MiniNumber.ofText txpow.blockWeight
    total.add w) .zero

/-- `getTotalWeight`: the whole parts of both totals. -/
def getTotalWeight (c : Chain) : Result ℤ := do
  let chainweight ← addWeights c.txpows
  let cascweight := match c.cascade with
    | some cascade => cascade.totalWeight.getAsBigInteger
    | none => 0
  return cascweight + chainweight.getAsBigInteger

/-- The blocks of a chain's cascade, tip first. -/
def cascadeBlocks (c : Chain) : List TxPoW :=
  match c.cascade with
  | some cascade => Cascade.blocks cascade.nodes
  | none => []

/-- The blocks up to and with the one with an id; all of them when there is none. -/
def upTo (zTxPOWID : MiniData) : List TxPoW → List TxPoW
  | [] => []
  | txpow :: rest => if txpow.txPoWID = zTxPOWID then [txpow] else txpow :: upTo zTxPOWID rest

/-- `createShortenedIBD`: what comes behind a block, and the block. A cascade that is cut is filled
again from its oldest block on. -/
def createShortenedIBD (levelNodes : ℕ) (c : Chain) (zTxPOWID : MiniData) : Result Chain :=
  if c.txpows.any fun txpow => txpow.txPoWID == zTxPOWID then
    .ok ⟨some Cascade.empty, (upTo zTxPOWID c.txpows.reverse).reverse⟩
  else do
    let cascade ← (Cascade.empty.addAll (upTo zTxPOWID (cascadeBlocks c)).reverse).finalCascade levelNodes
    return ⟨some cascade, c.txpows⟩

/-- Whether a block with an id is among some blocks. -/
def contains (txpows : List TxPoW) (txpow : TxPoW) : Bool :=
  txpows.any fun t => t.txPoWID == txpow.txPoWID

/-- The last common block: their tree in ours, their tree in our cascade, their cascade in our tree and
their cascade in our cascade, each from the newest block on. -/
def findCrossover (current zIBD : Chain) : Option TxPoW :=
  (zIBD.txpows.reverse.find? (contains current.txpows)).or <|
  (zIBD.txpows.reverse.find? (contains (cascadeBlocks current))).or <|
  ((cascadeBlocks zIBD).find? (contains current.txpows)).or <|
  (cascadeBlocks zIBD).find? (contains (cascadeBlocks current))

/-- **`checkOurChainHeavier`**: our own complete chain weighs at least as much as theirs, both from the
last common block on. -/
def checkOurChainHeavier (levelNodes : ℕ) (current zIBD : Chain) : Result Bool :=
  match findCrossover current zIBD with
  | some found => do
    let mynew ← createShortenedIBD levelNodes current found.txPoWID
    let myweight ← getTotalWeight mynew
    let theirnew ← createShortenedIBD levelNodes zIBD found.txPoWID
    let theirweight ← getTotalWeight theirnew
    return theirweight ≤ myweight
  | none => do
    let myweight ← getTotalWeight current
    let theirweight ← getTotalWeight zIBD
    return theirweight ≤ myweight

end IBD

end Minima
