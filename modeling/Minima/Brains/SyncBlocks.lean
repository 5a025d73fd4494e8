import Minima.Brains.NodeRun
import Minima.Database.TxPoWTreeNode

/-! # `processSyncBlock`: blocks of a peer on the tree

A peer that syncs a node sends it a list of `TxBlock`s. `processSyncBlock` puts each of them under the
node of the tree with its parent id, or makes it the root of an empty tree; `recalculateTree` runs after
every 257 of them.

* **`SyncNode`** — the tree, its tip, and the stores behind it.
* **`SyncNode.processSyncBlock`**, **`SyncNode.syncBlocks`** — one block, and the loop over the list.
* **`syncCalls_linked_iff`** — on an empty tree behind a cascade every adopted block is linked exactly
  when the first block names the tip of the cascade as its parent, or never becomes the root. -/

namespace Minima

open RoseTree

/-- **The tree of a node that syncs,** with its tip and the stores behind it. Unlike in `BlockTree`
nothing is known of the numbers of its blocks. -/
structure SyncNode where
  root : Option (RoseTree TxPoW)
  tip : Option BlockPtr
  stores : TxPoWProcessor.Stores

/-- What a recalculation of a tree picks: its tip, and the order of `mFastLink`. -/
structure Recalculation (t : RoseTree TxPoW) where
  tip : BlockPtr
  tip_of : tip.Of t
  fastLink : List BlockPtr
  links : fastLink.Perm t.refs

/-- **What a run depends on besides its blocks:** the parameters of the node, what storing the `i`-th
block in the databases comes to, and what each recalculation picks, which is nothing when it throws. -/
structure SyncEnv where
  params : TxPoWProcessor.Params
  stored : ℕ → Result Unit
  recalculation : (t : RoseTree TxPoW) → Option (Recalculation t)

namespace SyncNode

open TxPoWProcessor TxPoWTreeNode

section Process

variable (C : Crypto) (env : SyncEnv)

/-- `findNode`: the ids in a tree are distinct, because every block is looked up before it is added. -/
def findNode (t : RoseTree TxPoW) (zTxPoWID : MiniData) : Option BlockPtr :=
  t.refs.find? fun node => node.getTxPoW.txPoWID == zTxPoWID

/-- A new node as the root: `setRoot` recalculates the tree of this one block, which parses its
weight. -/
def setRoot (node : SyncNode) (zTxBlock : TxBlock) : SyncNode × Result Bool :=
  match constructMMR C zTxBlock with
  | .error e => (node, .error e)
  | .ok _ =>
    let t : RoseTree TxPoW := .node zTxBlock.txpow []
    match MiniNumber.ofText zTxBlock.txpow.blockWeight with
    | .error e => ({ node with root := some t }, .error e)
    | .ok _ => ({ node with root := some t, tip := some t.rootRef }, .ok true)

/-- A new node below the node with its parent id. -/
def addBlock (node : SyncNode) (t : RoseTree TxPoW) (zTxBlock : TxBlock) : SyncNode × Result Bool :=
  match findNode t zTxBlock.txpow.txPoWID with
  | some _ => (node, .ok false)
  | none =>
    match zTxBlock.txpow.getParentID with
    | .error e => (node, .error e)
    | .ok parentID =>
      match findNode t parentID with
      -- a missing parent is logged
      | none => (node, .ok false)
      | some parentnode =>
        match constructMMR C zTxBlock with
        | .error e => (node, .error e)
        | .ok _ => ({ node with root := some (t.addChild parentnode.path zTxBlock.txpow) }, .ok true)

/-- A block with a number up to that of the root. -/
def isBehindRoot (node : SyncNode) (zTxBlock : TxBlock) : Bool :=
  match node.root with
  | some curroot => zTxBlock.txpow.getBlockNumber.isLessEqual curroot.value.getBlockNumber
  | none => false

/-- **`processSyncBlock`**: the node behind it, and what it returns. `stored` is what the databases make
of the block. -/
def processSyncBlock (stored : Result Unit) (node : SyncNode) (zTxBlock : TxBlock) :
    SyncNode × Result Bool :=
  match stored with
  | .error e => (node, .error e)
  | .ok _ =>
    if node.isBehindRoot zTxBlock then (node, .ok false)
    else match node.tip with
      | none =>
        match node.stores.cascade.getTip with
        | some casctip =>
          match zTxBlock.txpow.getBlockNumber.sub .one with
          | .error e => (node, .error e)
          | .ok before =>
            if casctip.txpow.getBlockNumber.isEqual before then node.setRoot C zTxBlock
            -- not the immediate next block after the cascade: treated as a new root
            else node.setRoot C zTxBlock
        | none => node.setRoot C zTxBlock
      | some _ =>
        match node.root with
        | none => (node, .ok false)
        | some t => node.addBlock C t zTxBlock

/-- **`recalculateTree`** of the processor: a long branch is cut, and what leaves the tree goes into the
stores. It catches what it throws. -/
def recalculateTree (node : SyncNode) : SyncNode :=
  match node.root with
  | none => { node with tip := none }
  | some t =>
    match env.recalculation t with
    | none => node
    | some r =>
      if env.params.startDepth + env.params.frequency ≤ (t.lineage r.tip).length then
        match BlockTree.newRootOf t r.tip env.params.startDepth with
        | none => { node with tip := some r.tip }
        | some newroot =>
          match env.recalculation newroot.tree with
          -- `setRoot` throws, and nothing goes into the stores
          | none =>
            { node with
              root := some newroot.tree
              tip := some ⟨r.tip.path.drop newroot.path.length, r.tip.tree⟩ }
          | some r' =>
            { root := some newroot.tree
              tip := some r'.tip
              stores := feed env.params.levelNodes env.params.isMega node.stores
                (BlockTree.removedOf t r.fastLink newroot) }
      else { node with tip := some r.tip }

/-- One call of `processSyncBlock`: the block, and the node before and behind it. -/
structure SyncCall where
  before : SyncNode
  block : TxBlock
  after : SyncNode

/-- The node that the loop goes on with, and the additions since the last recalculation. -/
def nextRound (additions : ℕ) (after : SyncNode) : SyncNode × ℕ :=
  if 256 < additions + 1 then (after.recalculateTree env, 0) else (after, additions + 1)

/-- **The loop over the blocks,** from the `i`-th on and with a number of additions since the last
recalculation: its calls, the node it leaves, and the fault that ends it. An exception breaks the loop. -/
def syncBlocks : ℕ → ℕ → SyncNode → List TxBlock → List SyncCall × SyncNode × Result Unit
  | _, _, s, [] => ([], s, .ok ())
  | i, additions, s, block :: blocks =>
    match processSyncBlock C (env.stored i) s block with
    | (after, .error (.exception _)) => ([⟨s, block, after⟩], after, .ok ())
    | (after, .error (.undefined what)) => ([⟨s, block, after⟩], after, undefinedBehaviour what)
    | (after, .ok _) =>
      let (next, additions) := nextRound env additions after
      let (calls, rest) := syncBlocks (i + 1) additions next blocks
      (⟨s, block, after⟩ :: calls, rest)

/-- The calls of the loop. -/
def syncCalls (node : SyncNode) (blocks : List TxBlock) : List SyncCall :=
  (syncBlocks C env 0 0 node blocks).1

end Process

/-! ## Linked blocks -/

/-- **A call that adopts only a linked block:** the root of an empty tree has the tip of the cascade as
its parent, and any other block comes in under a node of the tree that has the id of its parent. -/
def SyncCall.Linked (call : SyncCall) : Prop :=
  match call.before.root with
  | none => call.after.root = none ∨ ∃ casctip, call.before.stores.cascade.getTip = some casctip ∧
      call.block.txpow.getParentID = .ok casctip.txpow.txPoWID
  | some t => call.after.root = some t ∨ ∃ parentnode : BlockPtr, parentnode.Of t ∧
      call.block.txpow.getParentID = .ok parentnode.getTxPoW.txPoWID ∧
      call.after.root = some (t.addChild parentnode.path call.block.txpow)

theorem of_findNode {t : RoseTree TxPoW} {zTxPoWID : MiniData} {node : BlockPtr}
    (h : findNode t zTxPoWID = some node) : node.Of t ∧ node.getTxPoW.txPoWID = zTxPoWID := by
  unfold findNode at h
  have hid := List.find?_some h
  rw [beq_iff_eq] at hid
  exact ⟨mem_refs.mp (List.mem_of_find?_eq_some h), hid⟩

/-- A block below the root comes in under a node of the tree, or not at all. -/
theorem addBlock_cases (C : Crypto) (node : SyncNode) (t : RoseTree TxPoW) (zTxBlock : TxBlock) :
    (node.addBlock C t zTxBlock).1 = node ∨ ∃ parentnode : BlockPtr, parentnode.Of t ∧
      zTxBlock.txpow.getParentID = .ok parentnode.getTxPoW.txPoWID ∧
      (node.addBlock C t zTxBlock).1 =
        { node with root := some (t.addChild parentnode.path zTxBlock.txpow) } := by
  unfold addBlock
  cases findNode t zTxBlock.txpow.txPoWID with
  | some _ => exact .inl rfl
  | none =>
    cases hparent : zTxBlock.txpow.getParentID with
    | error e => exact .inl rfl
    | ok parentID =>
      cases hfind : findNode t parentID with
      | none =>
        simp only [hfind]
        exact .inl trivial
      | some parentnode =>
        simp only [hfind]
        cases constructMMR C zTxBlock with
        | error e => exact .inl rfl
        | ok s =>
          obtain ⟨hof, hid⟩ := of_findNode hfind
          exact .inr ⟨parentnode, hof, by rw [hid], rfl⟩

/-- **What one call does to a tree with a tip:** nothing, or a block comes in under a node of it. -/
theorem processSyncBlock_cases (C : Crypto) (stored : Result Unit) {node : SyncNode} {t : RoseTree TxPoW}
    {tip : BlockPtr} (hroot : node.root = some t) (htip : node.tip = some tip) (zTxBlock : TxBlock) :
    (processSyncBlock C stored node zTxBlock).1 = node ∨ ∃ parentnode : BlockPtr, parentnode.Of t ∧
      zTxBlock.txpow.getParentID = .ok parentnode.getTxPoW.txPoWID ∧
      (processSyncBlock C stored node zTxBlock).1 =
        { node with root := some (t.addChild parentnode.path zTxBlock.txpow) } := by
  cases stored with
  | error e => exact .inl rfl
  | ok _ =>
    cases hbehind : node.isBehindRoot zTxBlock with
    | true =>
      left
      rw [processSyncBlock, hbehind]
      rfl
    | false =>
      have heq : processSyncBlock C (.ok ()) node zTxBlock = node.addBlock C t zTxBlock := by
        rw [processSyncBlock, hbehind, htip, hroot]
        rfl
      rw [heq]
      exact addBlock_cases C node t zTxBlock

/-! ## Runs -/

/-- The tree has a root and a tip. -/
def Rooted (node : SyncNode) : Prop := node.root.isSome ∧ node.tip.isSome

theorem Rooted.recalculateTree {env : SyncEnv} {node : SyncNode} (h : node.Rooted) :
    (node.recalculateTree env).Rooted := by
  obtain ⟨t, hroot⟩ := Option.isSome_iff_exists.mp h.1
  unfold SyncNode.recalculateTree
  rw [hroot]
  simp only
  split
  · exact h
  · split_ifs
    · split
      · exact ⟨rfl, rfl⟩
      · split <;> exact ⟨rfl, rfl⟩
    · exact ⟨rfl, rfl⟩

theorem Rooted.processSyncBlock {C : Crypto} {stored : Result Unit} {node : SyncNode} (h : node.Rooted)
    (zTxBlock : TxBlock) : (processSyncBlock C stored node zTxBlock).1.Rooted := by
  obtain ⟨t, hroot⟩ := Option.isSome_iff_exists.mp h.1
  obtain ⟨tip, htip⟩ := Option.isSome_iff_exists.mp h.2
  rcases processSyncBlock_cases C stored hroot htip zTxBlock with heq | ⟨parentnode, -, -, heq⟩
  · rw [heq]
    exact h
  · rw [heq]
    exact ⟨rfl, h.2⟩

/-- On a tree with a tip a call adopts only a linked block. -/
theorem linked_of_rooted (C : Crypto) (stored : Result Unit) {node : SyncNode} (h : node.Rooted)
    (zTxBlock : TxBlock) :
    SyncCall.Linked ⟨node, zTxBlock, (processSyncBlock C stored node zTxBlock).1⟩ := by
  obtain ⟨t, hroot⟩ := Option.isSome_iff_exists.mp h.1
  obtain ⟨tip, htip⟩ := Option.isSome_iff_exists.mp h.2
  rw [SyncCall.Linked]
  simp only [hroot]
  rcases processSyncBlock_cases C stored hroot htip zTxBlock with heq | ⟨parentnode, hof, hparent, heq⟩
  · left
    rw [heq, hroot]
  · right
    exact ⟨parentnode, hof, hparent, by rw [heq]⟩

section Loop

variable {C : Crypto} {env : SyncEnv} {i additions : ℕ} {s after : SyncNode} {block : TxBlock}
  (blocks : List TxBlock)

theorem syncBlocks_of_error {e : Fault} (h : processSyncBlock C (env.stored i) s block = (after, .error e)) :
    (syncBlocks C env i additions s (block :: blocks)).1 = [⟨s, block, after⟩] := by
  cases e <;> simp only [syncBlocks, h]

theorem syncBlocks_of_ok {b : Bool} (h : processSyncBlock C (env.stored i) s block = (after, .ok b)) :
    (syncBlocks C env i additions s (block :: blocks)).1 = ⟨s, block, after⟩ ::
      (syncBlocks C env (i + 1) (nextRound env additions after).2 (nextRound env additions after).1
        blocks).1 := by
  simp only [syncBlocks, h, nextRound]

theorem Rooted.nextRound (h : after.Rooted) : (nextRound env additions after).1.Rooted := by
  unfold SyncNode.nextRound
  split_ifs
  · exact h.recalculateTree
  · exact h

/-- **On a tree with a tip the loop adopts only linked blocks.** -/
theorem syncBlocks_linked_of_rooted (h : s.Rooted) :
    ∀ call ∈ (syncBlocks C env i additions s blocks).1, call.Linked := by
  induction blocks generalizing i additions s with
  | nil =>
    intro call hcall
    cases hcall
  | cons block blocks ih =>
    have hlinked := linked_of_rooted C (env.stored i) h block
    have hafter := @Rooted.processSyncBlock C (env.stored i) s h block
    cases hcall : processSyncBlock C (env.stored i) s block with
    | mk after out =>
      rw [hcall] at hlinked hafter
      cases out with
      | error e =>
        rw [syncBlocks_of_error blocks hcall]
        simpa using hlinked
      | ok b =>
        rw [syncBlocks_of_ok blocks hcall, List.forall_mem_cons]
        exact ⟨hlinked, ih hafter.nextRound⟩

end Loop

/-! ## An empty tree behind a cascade -/

/-- **The block can become a root:** the databases store it, its number has one before it, and its MMR
can be made. -/
def CanRoot (C : Crypto) (stored : Result Unit) (block : TxBlock) : Prop :=
  stored = .ok () ∧ (∃ before, block.txpow.getBlockNumber.sub .one = .ok before) ∧
    ∃ mmr, constructMMR C block = .ok mmr

/-- On an empty tree behind a cascade a call either makes the block the root, whatever its parent, or
throws and leaves the tree empty. -/
theorem processSyncBlock_empty {C : Crypto} {stored : Result Unit} {node : SyncNode}
    {casctip : CascadeNode} (hroot : node.root = none) (htip : node.tip = none)
    (hcasc : node.stores.cascade.getTip = some casctip) (block : TxBlock) :
    CanRoot C stored block ∧ processSyncBlock C stored node block = node.setRoot C block ∧
        (processSyncBlock C stored node block).1.root = some (.node block.txpow []) ∨
      ¬ CanRoot C stored block ∧ ∃ e, processSyncBlock C stored node block = (node, .error e) := by
  have hbehind : node.isBehindRoot block = false := by
    rw [isBehindRoot, hroot]
  unfold CanRoot processSyncBlock
  cases stored with
  | error e => exact .inr ⟨fun h => (by cases h.1), e, rfl⟩
  | ok u =>
    simp only [hbehind, htip, hcasc, Bool.false_eq_true, if_false, ite_self]
    cases hsub : block.txpow.getBlockNumber.sub .one with
    | error e =>
      right
      refine ⟨fun h => ?_, e, rfl⟩
      obtain ⟨_, hbefore⟩ := h.2.1
      cases hbefore
    | ok before =>
      cases hmmr : constructMMR C block with
      | error e =>
        right
        refine ⟨fun h => ?_, e, by simp only [setRoot, hmmr]⟩
        obtain ⟨_, hmake⟩ := h.2.2
        cases hmake
      | ok mmr =>
        left
        refine ⟨⟨trivial, ⟨before, rfl⟩, mmr, rfl⟩, rfl, ?_⟩
        simp only [setRoot, hmmr]
        cases MiniNumber.ofText block.txpow.blockWeight <;> rfl

/-- A call on an empty tree that makes the block the root is linked exactly when the block names the tip
of the cascade. -/
theorem linked_empty_iff {before after : SyncNode} {block : TxBlock} {casctip : CascadeNode}
    (hroot : before.root = none) (hcasc : before.stores.cascade.getTip = some casctip)
    (hafter : after.root = some (.node block.txpow [])) :
    SyncCall.Linked ⟨before, block, after⟩ ↔
      block.txpow.getParentID = .ok casctip.txpow.txPoWID := by
  rw [SyncCall.Linked]
  simp only [hroot, hafter, hcasc, Option.some.injEq, reduceCtorEq, false_or]
  constructor
  · rintro ⟨_, rfl, h⟩
    exact h
  · exact fun h => ⟨casctip, rfl, h⟩

/-- A root that was just set has a tip, unless setting it threw. -/
theorem rooted_of_setRoot {C : Crypto} {node after : SyncNode} {block : TxBlock} {b : Bool}
    (h : node.setRoot C block = (after, .ok b)) : after.Rooted := by
  unfold setRoot at h
  split at h
  · cases h
  · simp only at h
    split at h
    · cases h
    · cases h
      exact ⟨rfl, rfl⟩

/-- **On an empty tree behind a cascade every adopted block is linked exactly when the first block names
the tip of the cascade as its parent, or cannot become the root.** -/
theorem syncCalls_linked_iff (C : Crypto) (env : SyncEnv) (s : SyncNode) (casctip : CascadeNode)
    (hroot : s.root = none) (htip : s.tip = none) (hcasc : s.stores.cascade.getTip = some casctip)
    (blocks : List TxBlock) :
    (∀ call ∈ syncCalls C env s blocks, call.Linked) ↔
      ∀ block ∈ blocks.head?, CanRoot C (env.stored 0) block →
        block.txpow.getParentID = .ok casctip.txpow.txPoWID := by
  unfold syncCalls
  cases blocks with
  | nil => simp [syncBlocks]
  | cons block blocks =>
    simp only [List.head?_cons, Option.mem_def, Option.some.injEq, forall_eq']
    rcases processSyncBlock_empty hroot htip hcasc block with ⟨hcan, hset, hafter⟩ | ⟨hcannot, e, herr⟩
    · cases hcall : processSyncBlock C (env.stored 0) s block with
      | mk after out =>
        rw [hcall] at hafter hset
        have hlinked := linked_empty_iff hroot hcasc hafter
        cases out with
        | error e =>
          rw [syncBlocks_of_error blocks hcall]
          simp [hlinked, hcan]
        | ok b =>
          rw [syncBlocks_of_ok blocks hcall, List.forall_mem_cons, hlinked]
          constructor
          · exact fun h _ => h.1
          · exact fun h => ⟨h hcan, syncBlocks_linked_of_rooted blocks (rooted_of_setRoot hset.symm).nextRound⟩
    · rw [syncBlocks_of_error blocks herr]
      simp [hcannot, SyncCall.Linked, hroot]

/-! ## An unlinked root -/

/-- A block without coins: its id, its number and its parent. -/
def sampleTxBlock (id : Byte) (number : ℕ) (parent : Byte) (h : number < 10 ^ 64 := by decide) : TxBlock :=
  ⟨TxPoW.sample [id] number 0 (fun _ => ⟨[parent]⟩) h, [], [], []⟩

/-- The databases store every block, and no recalculation gets through. -/
def sampleEnv : SyncEnv := ⟨⟨256, 64, 32, false⟩, fun _ => .ok (), fun _ => none⟩

/-- No tree, behind a cascade with block five at its tip. -/
def behindCascade : SyncNode :=
  ⟨none, none, ⟨Cascade.empty.addToTip (sampleTxBlock 5 5 4 TxPoW.five_lt_limit).txpow, [], []⟩⟩

/-- Block six on block five of the cascade. -/
def linkedSix : TxBlock := sampleTxBlock 6 6 5 TxPoW.six_lt_limit

/-- Block six of another chain. -/
def unlinkedSix : TxBlock := sampleTxBlock 0x66 6 0x55 TxPoW.six_lt_limit

theorem canRoot_unlinkedSix : CanRoot Crypto.plain (.ok ()) unlinkedSix := by
  refine ⟨rfl, ⟨.ofInt 5, by decide +kernel⟩, ?_⟩
  have h : (constructMMR Crypto.plain unlinkedSix).toOption.isSome = true := by decide +kernel
  cases hmmr : constructMMR Crypto.plain unlinkedSix with
  | ok mmr => exact ⟨mmr, rfl⟩
  | error e =>
    rw [hmmr] at h
    cases h

/-- The linked block six becomes the root, as it should. -/
theorem syncCalls_linked_iff_linkedSix :
    linkedSix.txpow.getParentID = .ok (sampleTxBlock 5 5 4).txpow.txPoWID ∧
      ∀ call ∈ syncCalls Crypto.plain sampleEnv behindCascade [linkedSix], call.Linked := by
  have hparent : linkedSix.txpow.getParentID = .ok (sampleTxBlock 5 5 4).txpow.txPoWID := by
    decide +kernel
  refine ⟨hparent, ?_⟩
  apply (syncCalls_linked_iff Crypto.plain sampleEnv behindCascade
    (CascadeNode.ofTxPoW (sampleTxBlock 5 5 4).txpow) rfl rfl rfl [linkedSix]).mpr
  intro block hblock _
  obtain rfl := Option.some.inj hblock
  exact hparent

/-- Block six of another chain becomes the root too, though block five of the cascade is not its
parent. -/
theorem syncCalls_not_linked :
    ∃ call ∈ syncCalls Crypto.plain sampleEnv behindCascade [unlinkedSix],
      call.after.root = some (.node unlinkedSix.txpow []) ∧
        unlinkedSix.txpow.getParentID = .ok ⟨[0x55]⟩ ∧ ¬ call.Linked := by
  have hcasc : behindCascade.stores.cascade.getTip =
      some (CascadeNode.ofTxPoW (sampleTxBlock 5 5 4).txpow) := rfl
  have hroot : behindCascade.root = none := rfl
  have hcases := @processSyncBlock_empty Crypto.plain (.ok ()) behindCascade _ hroot rfl hcasc unlinkedSix
  rcases hcases with ⟨-, -, hafter⟩ | ⟨hcannot, -⟩
  · have hcall : (⟨behindCascade, unlinkedSix,
        (processSyncBlock Crypto.plain (.ok ()) behindCascade unlinkedSix).1⟩ : SyncCall) ∈
        syncCalls Crypto.plain sampleEnv behindCascade [unlinkedSix] := by
      unfold syncCalls
      cases h : processSyncBlock Crypto.plain (sampleEnv.stored 0) behindCascade unlinkedSix with
      | mk after out =>
        cases out with
        | error e =>
          rw [syncBlocks_of_error [] h, show (.ok () : Result Unit) = sampleEnv.stored 0 from rfl, h]
          exact List.mem_singleton.mpr rfl
        | ok b =>
          rw [syncBlocks_of_ok [] h, show (.ok () : Result Unit) = sampleEnv.stored 0 from rfl, h]
          exact List.mem_cons_self ..
    refine ⟨_, hcall, hafter, by decide +kernel, ?_⟩
    rw [linked_empty_iff hroot hcasc hafter]
    decide +kernel
  · exact absurd canRoot_unlinkedSix hcannot

end SyncNode

end Minima
