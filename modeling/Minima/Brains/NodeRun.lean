import Minima.Brains.TxPoWProcessor

/-! # A node over its whole life: pruning and consensus

Blocks come into the tree under a node that accepts them; `recalculateTree` now and then cuts the tree
and feeds the cascade; the cascade is thinned out. Two nodes with the same chain have cut it at
different places and at different times.

* **`Node`**, **`Step`**, **`Reaches`** — the state of a node, what can happen to it, and its runs.
* **`Step.stands`** — a cut that meets no side blocks leaves a cascade that stands for all that was
  ever cut off the chain.
* **`checkParents_of_reaches`** — then `checkParents` answers as on the whole chain. -/

namespace Minima

open RoseTree TxPoWChecker

namespace TxPoWProcessor

/-- **The state of a node.** `past` are the blocks behind the root of the tree, newest first. The node
has them only as far as its cascade keeps them; no step looks at them. -/
structure Node where
  tree : BlockTree
  stores : Stores
  past : List TxPoW

namespace Node

/-- The blocks from a node of the tree back to the root, newest first. -/
def held (node : Node) (tip : BlockPtr) : List TxPoW :=
  match node.tree.root with
  | some t => txpows (t.lineage tip)
  | none => []

/-- **The full unpruned chain** behind a node of the tree. -/
def chain (node : Node) (tip : BlockPtr) : List TxPoW := node.held tip ++ node.past

/-- Nothing has left the tree yet. -/
def Fresh (node : Node) : Prop := node.stores.cascade = Cascade.empty ∧ node.past = []

/-- `checkParents` on a node of the tree, with the cascade of this node. -/
def checkParents (node : Node) (tip : BlockPtr) (zBlock : TxPoW) : Result Bool :=
  TxPoWChecker.checkParents (node.held tip) node.stores.cascade zBlock

theorem held_of_root {node : Node} {t : RoseTree TxPoW} (h : node.tree.root = some t) (tip : BlockPtr) :
    node.held tip = txpows (t.lineage tip) := by
  rw [held, h]

end Node

/-- `MINIMA_CASCADE_LEVEL_NODES`, `MINIMA_CASCADE_START_DEPTH`, `MINIMA_CASCADE_FREQUENCY` and
`IS_MEGAMMR`. -/
structure Params where
  levelNodes : ℕ
  startDepth : ℤ
  frequency : ℤ
  isMega : Bool

/-- What can happen at a node. -/
inductive Event where
  /-- `processTxPoW` adds a block under a node of the tree. -/
  | addBlock (parent : BlockPtr) (zBlock : TxPoW)
  /-- `recalculateTree` finds the branch long enough, with `mFastLink` in this order. -/
  | trim (fastLink : List BlockPtr)
  /-- A pass over the cascade. -/
  | cascadeChain

/-- **One step of a node.** After a step the tip of the tree is whichever node the new totals single
out. -/
inductive Step (par : Params) : Node → Event → Node → Prop
  | addBlock {node : Node} {t : RoseTree TxPoW} {parent : BlockPtr} {zBlock : TxPoW} {tree : BlockTree}
      (root : node.tree.root = some t) (of : parent.Of t)
      (accepted : node.checkParents parent zBlock = .ok true)
      (added : tree.root = some (t.addChild parent.path zBlock)) :
      Step par node (.addBlock parent zBlock) { node with tree := tree }
  | trim {node : Node} {t : RoseTree TxPoW} {tip newroot : BlockPtr} {fastLink : List BlockPtr}
      {tree : BlockTree} (root : node.tree.root = some t) (tip_eq : node.tree.tip = some tip)
      (long : par.startDepth + par.frequency ≤ (t.lineage tip).length)
      (links : fastLink.Perm t.refs)
      (cut : BlockTree.newRootOf t tip par.startDepth = some newroot)
      (newRoot : tree.root = (recalculateTree par.levelNodes par.startDepth par.frequency par.isMega
        node.tree fastLink node.stores).2) :
      Step par node (.trim fastLink)
        { tree := tree
          stores := (recalculateTree par.levelNodes par.startDepth par.frequency par.isMega
            node.tree fastLink node.stores).1
          past := txpows (t.lineage newroot).tail ++ node.past }
  | cascadeChain {node : Node} :
      Step par node .cascadeChain { node with stores :=
        { node.stores with cascade := (node.stores.cascade.cascadeChain par.levelNodes).1 } }

/-- **A step that meets no side blocks:** when the tree is cut, every block of it with a number below
the new root's is an ancestor of the new root. -/
def Clean (par : Params) (node : Node) : Event → Prop
  | .trim _ => ∀ t ∈ node.tree.root, ∀ tip ∈ node.tree.tip, BlockTree.NoSideBlocks t tip par.startDepth
  | _ => True

/-- **The runs of a node** from a fresh one, through steps that are all `allowed`. -/
inductive Reaches (par : Params) (allowed : Node → Event → Prop) : Node → Prop
  | fresh {node : Node} (h : node.Fresh) : Reaches par allowed node
  | step {node node' : Node} {event : Event} (before : Reaches par allowed node)
      (ok : allowed node event) (step : Step par node event node') : Reaches par allowed node'

/-! ## What a cut does -/

/-- A cut hands over what `setLength` returns, and the tree goes on from the new root. -/
theorem recalculateTree_of_long {par : Params} {tree : BlockTree} {t : RoseTree TxPoW}
    {tip newroot : BlockPtr} (ht : tree.root = some t) (htip : tree.tip = some tip)
    (long : par.startDepth + par.frequency ≤ (t.lineage tip).length)
    (cut : BlockTree.newRootOf t tip par.startDepth = some newroot) (fastLink : List BlockPtr)
    (stores : Stores) :
    recalculateTree par.levelNodes par.startDepth par.frequency par.isMega tree fastLink stores =
      (feed par.levelNodes par.isMega stores (BlockTree.removedOf t fastLink newroot),
        some newroot.tree) := by
  simp only [recalculateTree, ht, htip, long, if_true, BlockTree.setLength, cut, Option.map_some]

/-- **A cut does not change the chain behind a block that stays:** what the node no longer holds of it
is the past. -/
theorem Step.chain_trim {par : Params} {node node' : Node} {fastLink : List BlockPtr}
    (h : Step par node (.trim fastLink) node') :
    ∃ t tip newroot, node.tree.root = some t ∧ node.tree.tip = some tip ∧
      BlockTree.newRootOf t tip par.startDepth = some newroot ∧
      ∀ s : BlockPtr, s.Of newroot.tree → node'.chain s = node.chain (newroot.under s) := by
  cases h with
  | @trim t tip newroot _ tree root tip_eq long links cut newRoot =>
    refine ⟨t, tip, newroot, root, tip_eq, cut, fun s hs => ?_⟩
    rw [recalculateTree_of_long root tip_eq long cut] at newRoot
    obtain ⟨t', ht', htip⟩ := node.tree.tip_of tip tip_eq
    obtain rfl : t = t' := Option.some.inj (root.symm.trans ht')
    have hof : newroot.Of t := of_mem_lineage htip (BlockTree.mem_lineage_of_newRootOf cut)
    have hline := map_lineage_under RoseTree.value hof hs
    rw [Node.chain, Node.chain, Node.held_of_root newRoot, Node.held_of_root root, ← List.append_assoc]
    exact congrArg (· ++ node.past) hline.symm

/-! ## The cascade stands for the past -/

/-- **The cascade stands for all that has left the chain.** -/
def Kept (par : Params) (node : Node) : Prop :=
  Cascade.Stands (Cascade.limits par.levelNodes) node.stores.cascade.nodes
    (node.past.map TxPoW.clearBody)

/-- A clean cut feeds the ancestors of the new root, and nothing else, to the cascade. -/
theorem kept_feed {par : Params} {node : Node} {t : RoseTree TxPoW} {newroot : BlockPtr}
    (h : Kept par node) :
    Cascade.Stands (Cascade.limits par.levelNodes)
      (feed par.levelNodes par.isMega node.stores
        (BlockTree.mainChain (t.lineage newroot).tail)).cascade.nodes
      ((txpows (t.lineage newroot).tail ++ node.past).map TxPoW.clearBody) := by
  rw [feed, foldl_addNode]
  show Cascade.Stands _ ((node.stores.cascade.addAll _).cascadeChain _).1.nodes _
  apply Cascade.Stands.cascadeChain
  rw [Cascade.addAll_eq_run par.levelNodes]
  have hrun := Cascade.Stands.run
    ((txpows (BlockTree.mainChain (t.lineage newroot).tail)).map Cascade.Call.addToTip) h
  -- the list is oldest first, the chain newest first
  have hreverse : (txpows (BlockTree.mainChain (t.lineage newroot).tail)).reverse =
      txpows (t.lineage newroot).tail := by
    rw [BlockTree.mainChain_eq, txpows, ← List.map_reverse, List.reverse_reverse, txpows]
  rwa [Cascade.added_map_addToTip, hreverse, ← List.map_append] at hrun

/-- **A clean step keeps it so.** -/
theorem Step.kept {par : Params} {node node' : Node} {event : Event} (h : Kept par node)
    (clean : Clean par node event) (step : Step par node event node') : Kept par node' := by
  cases step with
  | addBlock root of accepted added => exact h
  | cascadeChain => exact Cascade.Stands.cascadeChain h
  | @trim t tip newroot fastLink tree root tip_eq long links cut newRoot =>
    obtain ⟨t', ht', htip⟩ := node.tree.tip_of tip tip_eq
    obtain rfl : t = t' := Option.some.inj (root.symm.trans ht')
    have hnil := BlockTree.sideBranches_eq_nil links htip cut (clean t root tip tip_eq)
    show Cascade.Stands _ (recalculateTree _ _ _ _ _ _ _).1.cascade.nodes _
    rw [recalculateTree_of_long root tip_eq long cut, BlockTree.removedOf]
    simp only
    rw [hnil, List.append_nil]
    exact kept_feed h

/-- **In a clean run the cascade stands for the past all along.** -/
theorem kept_of_reaches {par : Params} {node : Node} (h : Reaches par (Clean par) node) :
    Kept par node := by
  induction h with
  | fresh h =>
    rw [Kept, h.1, h.2]
    exact .empty
  | step before ok step ih => exact step.kept ih ok

/-! ## Pruning does not change the verdict -/

/-- A node whose cascade stands for the past answers as the whole chain does. -/
theorem Kept.checkParents_eq {par : Params} {node : Node} (h : Kept par node) (tip : BlockPtr)
    (zBlock : TxPoW) :
    node.checkParents tip zBlock = TxPoWChecker.checkParents (node.chain tip) Cascade.empty zBlock := by
  have hempty : Cascade.blocks Cascade.empty.nodes = [] := rfl
  rw [Node.checkParents, TxPoWChecker.checkParents_eq, TxPoWChecker.checkParents_eq, hempty,
    List.append_nil]
  congr 2
  rw [eq_iff_iff]
  have hlatest : ∀ i, latestID i (node.held tip ++ Cascade.blocks node.stores.cascade.nodes) =
      latestID i (node.chain tip) := by
    intro i
    rw [Node.chain, latestID_append, latestID_append, latestID, h.latest_eq i, ← latestID,
      latestID_map_clearBody]
  constructor
  · intro hf i
    rw [hf i, hlatest]
  · intro hf i
    rw [hf i, hlatest]

/-- **Pruning does not change consensus on super parents.** Two nodes that hold the same chain, cut
and thinned out at different places and times, with different parameters even, give every candidate the
same verdict, the one against the full unpruned chain, as long as no cut has met side blocks. -/
theorem checkParents_of_reaches (par₁ par₂ : Params) (node₁ node₂ : Node)
    (h₁ : Reaches par₁ (Clean par₁) node₁) (h₂ : Reaches par₂ (Clean par₂) node₂)
    (tip₁ tip₂ : BlockPtr) (same : node₁.chain tip₁ = node₂.chain tip₂) (zBlock : TxPoW) :
    node₁.checkParents tip₁ zBlock = node₂.checkParents tip₂ zBlock ∧
      node₁.checkParents tip₁ zBlock =
        TxPoWChecker.checkParents (node₁.chain tip₁) Cascade.empty zBlock := by
  have hfull₁ := (kept_of_reaches h₁).checkParents_eq tip₁ zBlock
  have hfull₂ := (kept_of_reaches h₂).checkParents_eq tip₂ zBlock
  refine ⟨?_, hfull₁⟩
  rw [hfull₁, hfull₂, same]

/-! ## Two nodes, one with a side block -/

/-- The test parameters, with a chain length of one. -/
def testParams : Params := ⟨4, 1, 3, false⟩

def blockFour : TxPoW := sampleOn blockThree [4] 4 0

/-- The next block of both nodes: no block of the chain is above super level zero. -/
def blockFive : TxPoW := sampleOn blockFour [5] 5 0

/-- Block four as the tip of the tree, and as its root. -/
def tipFour : BlockPtr := ⟨[0, 0, 0], .node blockFour []⟩

def rootFour : BlockPtr := ⟨[], .node blockFour []⟩

/-- A node with a tree given in full. -/
def nodeOf (t : RoseTree TxPoW) (tip : BlockPtr) (stores : Stores) (past : List TxPoW)
    (htip : tip.Of t := by rfl) (h : BlockTree.wellFormed t = true := by decide +kernel) : Node :=
  ⟨.ofRoot t tip htip h, stores, past⟩

def noStores : Stores := ⟨Cascade.empty, [], []⟩

/-- Adding a block to a tree given in full. -/
theorem Reaches.addBlock {par : Params} {allowed : Node → Event → Prop} {t t' : RoseTree TxPoW}
    {tip tip' : BlockPtr} {htip : tip.Of t} {h : BlockTree.wellFormed t = true} {htip' : tip'.Of t'}
    {h' : BlockTree.wellFormed t' = true}
    (before : Reaches par allowed (nodeOf t tip noStores [] htip h))
    (hadd : ∀ node parent zBlock, allowed node (.addBlock parent zBlock)) (parent : BlockPtr)
    (zBlock : TxPoW) (of : parent.Of t) (ht' : t' = t.addChild parent.path zBlock)
    (accepted : (nodeOf t tip noStores [] htip h).checkParents parent zBlock = .ok true) :
    Reaches par allowed (nodeOf t' tip' noStores [] htip' h') :=
  before.step (hadd _ parent zBlock) (.addBlock rfl of accepted (congrArg some ht'))

/-- The chain up to block four. -/
def straightFour : RoseTree TxPoW :=
  .node blockOne [.node blockTwo [.node blockThree [.node blockFour []]]]

/-- The same with a side block beside block two. -/
def forkedFour : RoseTree TxPoW :=
  .node blockOne [.node blockTwo [.node blockThree [.node blockFour []]], .node sideTwo []]

/-- A node with blocks one to four before the cut. -/
def straightBefore : Node := nodeOf straightFour tipFour noStores []

/-- The node that has seen the side block as well. -/
def forkedBefore : Node := nodeOf forkedFour tipFour noStores []

/-- A node after the cut, with `mFastLink` in the order of the tree. -/
def afterCut (t : RoseTree TxPoW) (node : Node) : Node :=
  nodeOf (.node blockFour []) rootFour
    (recalculateTree testParams.levelNodes testParams.startDepth testParams.frequency testParams.isMega
      node.tree t.refs node.stores).1 [blockThree, blockTwo, blockOne]

theorem reaches_blockTwo {allowed : Node → Event → Prop}
    (hadd : ∀ node parent zBlock, allowed node (.addBlock parent zBlock)) :
    Reaches testParams allowed
      (nodeOf (.node blockOne [.node blockTwo []]) ⟨[0], .node blockTwo []⟩ noStores []) := by
  have one : Reaches testParams allowed
      (nodeOf (.node blockOne []) ⟨[], .node blockOne []⟩ noStores []) := .fresh ⟨rfl, rfl⟩
  exact one.addBlock hadd ⟨[], _⟩ blockTwo rfl rfl (by decide +kernel)

theorem reaches_straightBefore {allowed : Node → Event → Prop}
    (hadd : ∀ node parent zBlock, allowed node (.addBlock parent zBlock)) :
    Reaches testParams allowed straightBefore := by
  have three : Reaches testParams allowed
      (nodeOf straightRoot ⟨[0, 0], .node blockThree []⟩ noStores []) :=
    (reaches_blockTwo hadd).addBlock hadd ⟨[0], _⟩ blockThree rfl rfl (by decide +kernel)
  exact three.addBlock hadd ⟨[0, 0], _⟩ blockFour rfl rfl (by decide +kernel)

theorem reaches_forkedBefore {allowed : Node → Event → Prop}
    (hadd : ∀ node parent zBlock, allowed node (.addBlock parent zBlock)) :
    Reaches testParams allowed forkedBefore := by
  have side : Reaches testParams allowed
      (nodeOf (.node blockOne [.node blockTwo [], .node sideTwo []]) ⟨[0], .node blockTwo []⟩
        noStores []) :=
    (reaches_blockTwo hadd).addBlock hadd ⟨[], _⟩ sideTwo rfl rfl (by decide +kernel)
  have three : Reaches testParams allowed
      (nodeOf forkedRoot ⟨[0, 0], .node blockThree []⟩ noStores []) :=
    side.addBlock hadd ⟨[0], _⟩ blockThree rfl rfl (by decide +kernel)
  exact three.addBlock hadd ⟨[0, 0], _⟩ blockFour rfl rfl (by decide +kernel)

/-- The cut of a tree whose tip is block four, three blocks up. -/
theorem step_afterCut {t : RoseTree TxPoW} {htip : Ref.Of tipFour t}
    {h : BlockTree.wellFormed t = true} (long : 4 ≤ (t.lineage tipFour).length)
    (past : txpows (t.lineage tipFour).tail = [blockThree, blockTwo, blockOne]) :
    Step testParams (nodeOf t tipFour noStores [] htip h) (.trim t.refs)
      (afterCut t (nodeOf t tipFour noStores [] htip h)) := by
  have hlong : testParams.startDepth + testParams.frequency ≤ ((t.lineage tipFour).length : ℤ) := by
    show (4 : ℤ) ≤ _
    exact_mod_cast long
  have cut : BlockTree.newRootOf t tipFour testParams.startDepth = some tipFour := by
    obtain ⟨ancestors, hline⟩ := exists_lineage_eq_cons htip
    rw [BlockTree.newRootOf, hline]
    rfl
  have hroot : (afterCut t (nodeOf t tipFour noStores [] htip h)).tree.root =
      (recalculateTree testParams.levelNodes testParams.startDepth testParams.frequency
        testParams.isMega (.ofRoot t tipFour htip h) t.refs noStores).2 := by
    rw [recalculateTree_of_long rfl rfl hlong cut]
    rfl
  have hpast : txpows (t.lineage tipFour).tail ++ [] = [blockThree, blockTwo, blockOne] := by
    rw [List.append_nil, past]
  rw [afterCut, nodeOf, ← hpast]
  exact .trim rfl rfl hlong (.refl _) cut hroot

/-- Both nodes with the chain of four blocks agree, one cut at block four and the other not at all. -/
theorem checkParents_of_reaches_sample :
    straightBefore.checkParents tipFour blockFive =
        (afterCut straightFour straightBefore).checkParents rootFour blockFive ∧
      straightBefore.checkParents tipFour blockFive =
        TxPoWChecker.checkParents (straightBefore.chain tipFour) Cascade.empty blockFive := by
  have before : Reaches testParams (Clean testParams) straightBefore :=
    reaches_straightBefore fun _ _ _ => trivial
  have after : Reaches testParams (Clean testParams) (afterCut straightFour straightBefore) := by
    have hclean : Clean testParams straightBefore (.trim straightFour.refs) := by
      rintro t ht tip htip
      obtain rfl := Option.some.inj ht
      obtain rfl := Option.some.inj htip
      have hroot : straightBefore.tree.root = some straightFour := rfl
      have hof : Ref.Of tipFour straightFour := rfl
      have hnew : BlockTree.newRootOf straightFour tipFour 1 = some tipFour := rfl
      exact (BlockTree.sideBranches_eq_nil_iff hroot (.refl _) hof hnew).mp
        (List.isEmpty_iff.mp (by decide +kernel))
    exact before.step hclean (step_afterCut (by decide) rfl)
  exact checkParents_of_reaches testParams testParams straightBefore
    (afterCut straightFour straightBefore) before after tipFour rootFour rfl blockFive

/-- **A side block changes the verdict.** Both nodes hold the chain of blocks one to four, which follows
the rule, and have cut their trees at block four. The one that has seen a side block of super level one
has it in its cascade, and takes block five for wrong. -/
theorem checkParents_not_of_reaches :
    Reaches testParams (fun _ _ => True) (afterCut forkedFour forkedBefore) ∧
      Reaches testParams (fun _ _ => True) (afterCut straightFour straightBefore) ∧
      (afterCut forkedFour forkedBefore).chain rootFour =
        (afterCut straightFour straightBefore).chain rootFour ∧
      FollowsRule ((afterCut forkedFour forkedBefore).chain rootFour) ∧
      (afterCut forkedFour forkedBefore).checkParents rootFour blockFive = .ok false ∧
      (afterCut straightFour straightBefore).checkParents rootFour blockFive = .ok true := by
  refine ⟨?_, ?_, rfl, ?_, by decide +kernel, by decide +kernel⟩
  · exact (reaches_forkedBefore fun _ _ _ => trivial).step trivial (step_afterCut (by decide) rfl)
  · exact (reaches_straightBefore fun _ _ _ => trivial).step trivial (step_afterCut (by decide) rfl)
  · show FollowsRule [blockFour, blockThree, blockTwo, blockOne]
    simp only [FollowsRule, and_true]
    decide +kernel

end TxPoWProcessor

end Minima
