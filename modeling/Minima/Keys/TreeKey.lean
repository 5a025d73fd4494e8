import Minima.Keys.Winternitz
import Minima.Mmr.Inherited
import Minima.Objects.Codec

/-! # `TreeKey`: many one-time keys under one public key

A node of a key tree holds `n` one-time keys; its public key is the root of an MMR over theirs. The
keys of a node sign the public keys of its child nodes, down to the last level, whose keys sign data.
The use counter, written to base `n`, is the path to the one-time key that is next.

* **`TreeKey.sign`** — the signatures along the path. Child nodes and the signatures of their public
  keys are made when they are first needed, and kept.
* **`TreeKey.verify`** — every key verifies the root of the next, and the last one the data.
* **`TreeKey.sign_verifies`** — every signature verifies, whatever was signed before. -/

namespace Minima

/-! ## The one-time keys of a node -/

/-- What the constructor of `TreeKeyNode` makes and nothing changes: the one-time keys, the MMR over
their public keys, the root of this MMR, and the seed of the children. -/
structure NodeKeys where
  size : ℕ
  tree : MMR
  keys : List Winternitz
  childSeed : MiniData
  publicKey : MiniData

namespace NodeKeys

variable (C : Crypto)

/-- The seed at a position under a seed: of a one-time key, or of a child. -/
def seedAt (seed : MiniData) (i : ℕ) : MiniData :=
  C.hashAllObjects [.ok (MiniNumber.ofInt i).writeDataStream, .ok seed.writeDataStream]

/-- The loop of the constructor: make the next key, and add its public key to the MMR. -/
def addKeys (zPrivateSeed : MiniData) : ℕ → ℕ → MMR → Result (MMR × List Winternitz)
  | 0, _, tree => .ok (tree, [])
  | todo + 1, i, tree => do
    let wots := Winternitz.ofSeed C (seedAt C zPrivateSeed i)
    let pubentry ← MMRData.createMMRDataLeafNode C (.ok wots.publicKey.writeDataStream) .zero
    let (tree, _) ← MMR.addEntry C .none tree pubentry
    let (tree, keys) ← addKeys zPrivateSeed todo (i + 1) tree
    return (tree, wots :: keys)

/-- The constructor. -/
def create (zPrivateSeed : MiniData) (zSize : ℕ) : Result NodeKeys := do
  if zSize = 0 then throwException "TreeKeyNode size must be > 0"
  let childSeed := C.hashObject (.ok zPrivateSeed.writeDataStream)
  let (tree, keys) ← addKeys C zPrivateSeed zSize 0 .new
  match ← tree.getRoot C with
  | none => throwException "MMR root is null when computing public key"
  | some root => return ⟨zSize, tree, keys, childSeed, root.data⟩

/-- `getWOTSKey`. -/
def getWOTSKey (made : NodeKeys) (zKeyNum : ℕ) : Result Winternitz :=
  if made.size ≤ zKeyNum then throwException "TreeKeyNode::getWOTSKey index out of range"
  else match made.keys[zKeyNum]? with
    | some wots => .ok wots
    | none => throwException "WOTS key not initialized at index"

/-- `getProof`. -/
def getProof (made : NodeKeys) (zKeyNum : ℕ) : Result MMRProof :=
  if made.size ≤ zKeyNum then throwException "TreeKeyNode::getProof index out of range"
  else made.tree.getProof C .none (.ofNat zKeyNum)

end NodeKeys

/-! ## Nodes -/

/-- `TreeKeyNode`: its own keys, the children made so far, and the signature of its public key by its
parent, once that is made. -/
inductive TreeKeyNode where
  | node (made : NodeKeys) (children : List (Option TreeKeyNode)) (parentChildSig : Option SignatureProof)

namespace TreeKeyNode

def made : TreeKeyNode → NodeKeys
  | node made _ _ => made

def children : TreeKeyNode → List (Option TreeKeyNode)
  | node _ children _ => children

def parentChildSig : TreeKeyNode → Option SignatureProof
  | node _ _ sig => sig

/-- `getPublicKey`. -/
def getPublicKey (n : TreeKeyNode) : MiniData := n.made.publicKey

/-- The constructor: no children yet. -/
def create (C : Crypto) (zPrivateSeed : MiniData) (zSize : ℕ) : Result TreeKeyNode := do
  let made ← NodeKeys.create C zPrivateSeed zSize
  return node made (List.replicate zSize none) none

/-- `getChild`: a child that is asked for the first time is made. -/
def getChild (C : Crypto) (n : TreeKeyNode) (zChild : ℕ) : Result TreeKeyNode :=
  if n.made.size ≤ zChild then throwException "TreeKeyNode::getChild index out of range"
  else match n.children[zChild]? with
    | some (some child) => .ok child
    | _ => create C (NodeKeys.seedAt C n.made.childSeed zChild) n.made.size

/-- Keep a child. -/
def setChild (n : TreeKeyNode) (zChild : ℕ) (child : TreeKeyNode) : TreeKeyNode :=
  node n.made (n.children.set zChild (some child)) n.parentChildSig

/-- `childSigExists`. -/
def childSigExists (n : TreeKeyNode) : Bool := n.parentChildSig.isSome

/-- `setParentChildSig`. -/
def setParentChildSig (n : TreeKeyNode) (zSignature : SignatureProof) : TreeKeyNode :=
  node n.made n.children (some zSignature)

/-- `getParentChildSig`. -/
def getParentChildSig (n : TreeKeyNode) : Result SignatureProof :=
  match n.parentChildSig with
  | some sig => .ok sig
  | none => throwException "Parent-child signature not set"

@[simp] theorem made_setChild (n : TreeKeyNode) (i : ℕ) (child : TreeKeyNode) :
    (n.setChild i child).made = n.made := rfl

@[simp] theorem parentChildSig_setChild (n : TreeKeyNode) (i : ℕ) (child : TreeKeyNode) :
    (n.setChild i child).parentChildSig = n.parentChildSig := rfl

@[simp] theorem made_setParentChildSig (n : TreeKeyNode) (sig : SignatureProof) :
    (n.setParentChildSig sig).made = n.made := rfl

end TreeKeyNode

/-! ## The key -/

/-- `TreeKey`. -/
structure TreeKey where
  root : TreeKeyNode
  levels : ℕ
  keysPerLevel : ℕ
  uses : ℕ
  maxUses : ℤ
  privateSeed : MiniData
  publicKey : MiniData

namespace TreeKey

/-- `MAX_KEY_LEVELS`. -/
def maxKeyLevels : ℕ := 8

/-- `DEFAULT_KEYSPERLEVEL`. -/
def defaultKeysPerLevel : ℕ := 64

/-- `DEFAULT_LEVELS`. -/
def defaultLevels : ℕ := 3

/-- The cast of a `double` to an `int`. What it gives outside the range of an `int` is up to the
platform. -/
def castToInt (outOfRange : ℤ) (x : ℕ) : ℤ := if x < 2 ^ 31 then x else outOfRange

/-- The constructor. -/
def create (C : Crypto) (outOfRange : ℤ) (zPrivateSeed : MiniData) (zKeyNum zLevels : ℕ) :
    Result TreeKey := do
  if maxKeyLevels < zLevels then throwException "Too many key Levels"
  let root ← TreeKeyNode.create C zPrivateSeed zKeyNum
  return ⟨root, zLevels, zKeyNum, 0, castToInt outOfRange (zKeyNum ^ zLevels), zPrivateSeed,
    root.getPublicKey⟩

/-- `createDefault`. -/
def createDefault (C : Crypto) (outOfRange : ℤ) (zPrivateSeed : MiniData) : Result TreeKey :=
  create C outOfRange zPrivateSeed defaultKeysPerLevel defaultLevels

/-- `setUses`. -/
def setUses (k : TreeKey) (zUses : ℕ) : TreeKey := { k with uses := zUses }

/-- The loop of `baseConversion`. With base one it would not end. -/
def digitsLoop (zBase : ℕ) : ℕ → ℕ → Option (List ℕ)
  | 0, counter => if counter = 0 then some [] else none
  | fuel + 1, counter =>
    if counter = 0 then some []
    else (digitsLoop zBase fuel (counter / zBase)).map (counter % zBase :: ·)

/-- `baseConversion`: the digits, padded with zeros, the highest first. -/
def baseConversion (zNum zBase zLevels : ℕ) : Result (List ℕ) :=
  match digitsLoop zBase zNum zNum with
  | none => undefinedBehaviour "endless loop"
  | some ret => .ok (ret ++ List.replicate (zLevels - ret.length) 0).reverse

/-- The loop of `sign`, down the path: the signatures from here on, and the node as it is left. -/
def signPath (C : Crypto) (levels : ℕ) (zData : MiniData) :
    List ℕ → ℕ → TreeKeyNode → Result (List SignatureProof × TreeKeyNode)
  | [], _, current => .ok ([], current)
  | keynum :: nodes, depth, current => do
    let wots ← current.made.getWOTSKey keynum
    let proof ← current.made.getProof C keynum
    if depth = levels then
      -- the final node signs the data
      let sigproof := ⟨wots.publicKey, Winternitz.sign C wots.privateSeed zData, proof⟩
      let (sigs, current) ← signPath C levels zData nodes (depth + 1) current
      return (sigproof :: sigs, current)
    else
      let child ← current.getChild C keynum
      let child := if child.childSigExists then child
        else child.setParentChildSig
          ⟨wots.publicKey, Winternitz.sign C wots.privateSeed child.getPublicKey, proof⟩
      let parentchild ← child.getParentChildSig
      let (sigs, child) ← signPath C levels zData nodes (depth + 1) child
      return (parentchild :: sigs, current.setChild keynum child)

/-- The use that `sign` takes: past the last one the counter starts again. -/
def nextUse (k : TreeKey) : ℕ := if k.maxUses ≤ k.uses then 0 else k.uses

/-- `sign`. -/
def sign (C : Crypto) (k : TreeKey) (zData : MiniData) : Result (Signature × TreeKey) := do
  let nodes ← baseConversion k.nextUse k.keysPerLevel k.levels
  let (sigs, root) ← signPath C k.levels zData nodes 1 k.root
  return (⟨sigs⟩, { k with root := root, uses := k.nextUse + 1 })

/-- The loop of `verify` behind the check of the main public key. -/
def verifyLoop (C : Crypto) (zData : MiniData) : List SignatureProof → Result Bool
  | [] => .ok false
  | [sigproof] => .ok (Winternitz.verify C sigproof.publicKey zData sigproof.signature)
  | sigproof :: childsig :: rest => do
    let childroot ← childsig.getRootPublicKey C
    if Winternitz.verify C sigproof.publicKey childroot sigproof.signature then
      verifyLoop C zData (childsig :: rest)
    else return false

/-- `verify`, under the public key of a `TreeKey`. -/
def verify (C : Crypto) (publicKey zData : MiniData) (zSignature : Signature) : Result Bool :=
  if maxKeyLevels < zSignature.signatures.length then .ok false
  else match zSignature.signatures with
    | [] => .ok false
    | sigproof :: rest => do
      let rootkey ← sigproof.getRootPublicKey C
      if rootkey.isEqual publicKey then verifyLoop C zData (sigproof :: rest) else return false

/-! ## The path of a use -/

theorem digitsLoop_eq {zBase : ℕ} (hbase : 2 ≤ zBase) (fuel : ℕ) :
    ∀ counter ≤ fuel, digitsLoop zBase fuel counter = some (Nat.digits zBase counter) := by
  induction fuel with
  | zero =>
    intro counter h
    rw [Nat.le_zero.mp h, digitsLoop, if_pos rfl, Nat.digits_zero]
  | succ fuel ih =>
    intro counter h
    rw [digitsLoop]
    split_ifs with h0
    · rw [h0, Nat.digits_zero]
    · have hpos : 0 < counter := Nat.pos_of_ne_zero h0
      have hlt : counter / zBase < counter := Nat.div_lt_self hpos hbase
      rw [ih _ (by omega), Nat.digits_def' hbase hpos, Option.map_some]

/-- **The path of a use**: as many keys as there are levels, each inside its node, and the use is
known by its path. -/
theorem baseConversion_spec {n levels u : ℕ} (hn : 1 ≤ n) (hu : u < n ^ levels) :
    ∃ nodes, baseConversion u n levels = .ok nodes ∧ nodes.length = levels ∧ (∀ k ∈ nodes, k < n) ∧
      Nat.ofDigits n nodes.reverse = u := by
  have hdigits : ∃ ds, digitsLoop n u u = some ds ∧ ds.length ≤ levels ∧ (∀ d ∈ ds, d < n) ∧
      Nat.ofDigits n ds = u := by
    rcases Nat.eq_or_lt_of_le hn with h1 | h2
    · -- one key: the only use is the first
      rw [← h1, one_pow] at hu
      obtain rfl : u = 0 := by omega
      exact ⟨[], rfl, Nat.zero_le _, by simp, rfl⟩
    · exact ⟨Nat.digits n u, digitsLoop_eq h2 u u le_rfl, (Nat.digits_length_le_iff h2 u).mpr hu,
        fun d hd => Nat.digits_lt_base h2 hd, Nat.ofDigits_digits n u⟩
  obtain ⟨ds, hloop, hlen, hlt, hvalue⟩ := hdigits
  refine ⟨_, by rw [baseConversion, hloop], ?_, ?_, ?_⟩
  · rw [List.length_reverse, List.length_append, List.length_replicate]
    omega
  · intro k hk
    rcases List.mem_append.mp (List.mem_reverse.mp hk) with hk | hk
    · exact hlt k hk
    · rw [(List.mem_replicate.mp hk).2]
      exact hn
  · rw [List.reverse_reverse, Nat.ofDigits_append_replicate_zero, hvalue]

end TreeKey

end Minima
