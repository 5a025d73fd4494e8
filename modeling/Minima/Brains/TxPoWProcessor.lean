import Minima.Brains.SuperParents
import Minima.Database.BlockTree

/-! # `recalculateTree`: what leaves the tree goes into four stores

When the heaviest branch is long enough, `recalculateTree` cuts the tree with `setLength` and hands
every node of the list, in its order, to the archive, the cascade and the `MegaMMR`; then the cascade
is thinned out.

* **`setLength_onlyMainChain_iff`** — the stores get the chain behind the new root and nothing else
  exactly when the tree has no side blocks below the new root. -/

namespace Minima

open RoseTree

namespace TxPoWProcessor

/-! ## The stores -/

/-- What `recalculateTree` writes to: the cascade, and the blocks that the archive saved and that were
given to the `MegaMMR`, in order. -/
structure Stores where
  cascade : Cascade
  archive : List TxPoW
  megaMMR : List TxPoW

/-- One round of the loop over the list: `isMega` is `IS_MEGAMMR`. -/
def addNode (isMega : Bool) (stores : Stores) (txpnode : BlockPtr) : Stores where
  cascade := stores.cascade.addToTip txpnode.getTxPoW
  archive := stores.archive ++ [txpnode.getTxPoW]
  megaMMR := if isMega then stores.megaMMR ++ [txpnode.getTxPoW] else stores.megaMMR

/-- The loop over the list that `setLength` returned, and the pass over the cascade. -/
def feed (levelNodes : ℕ) (isMega : Bool) (stores : Stores) (nodes : List BlockPtr) : Stores :=
  let stores := nodes.foldl (addNode isMega) stores
  { stores with cascade := (stores.cascade.cascadeChain levelNodes).1 }

/-- **`recalculateTree`** behind the recalculation of the tree: the stores and the new root.
`startDepth` and `frequency` are the parameters of the cascade. -/
def recalculateTree (levelNodes : ℕ) (startDepth frequency : ℤ) (isMega : Bool) (tree : BlockTree)
    (fastLink : List BlockPtr) (stores : Stores) : Stores × Option (RoseTree TxPoW) :=
  match tree.root, tree.tip with
  | some t, some tip =>
    -- getHeaviestBranchLength() counts the nodes from the root to the tip
    if startDepth + frequency ≤ (t.lineage tip).length then
      let (cascade, newroot) := tree.setLength fastLink startDepth
      (feed levelNodes isMega stores cascade, newroot.map Ref.tree)
    else (stores, some t)
  | root, _ => (stores, root)

/-- The blocks of nodes. -/
def txpows (nodes : List BlockPtr) : List TxPoW := nodes.map Ref.getTxPoW

theorem foldl_addNode (isMega : Bool) (nodes : List BlockPtr) (stores : Stores) :
    nodes.foldl (addNode isMega) stores =
      { cascade := stores.cascade.addAll (txpows nodes)
        archive := stores.archive ++ txpows nodes
        megaMMR := if isMega then stores.megaMMR ++ txpows nodes else stores.megaMMR } := by
  induction nodes generalizing stores with
  | nil => cases isMega <;> simp [txpows, Cascade.addAll]
  | cons node nodes ih =>
    rw [List.foldl_cons, ih]
    cases isMega <;> simp [addNode, txpows, Cascade.addAll]

/-- A pass does not touch the tip. -/
theorem getTip_cascadeChain (levelNodes : ℕ) (c : Cascade) :
    (c.cascadeChain levelNodes).1.getTip = c.getTip := by
  cases c with
  | mk nodes total =>
    cases nodes with
    | nil => rfl
    | cons tip ns =>
      cases hw : Cascade.tipWeight tip with
      | error e => rw [Cascade.cascadeChain_of_tip_error hw]
      | ok w =>
        cases hl : (Cascade.cascadeLoop (Cascade.limits levelNodes) Cascade.start w ns).2 with
        | ok t =>
          rw [Cascade.cascadeChain_of_ok hw hl]
          rfl
        | error e =>
          rw [Cascade.cascadeChain_of_error hw hl]
          rfl

/-- The tip after a chain was added is its last block. -/
theorem getTip_addAll_concat (chain : List TxPoW) (t : TxPoW) (c : Cascade) :
    (c.addAll (chain ++ [t])).getTip = some (CascadeNode.ofTxPoW t) := by
  rw [Cascade.addAll, List.foldl_append]
  rfl

/-! ## Only the main chain -/

/-- **Only the main chain leaves the tree.** The list is the strict ancestors of the new root, oldest
first; fed to the stores it leaves the parent of the new root at the tip of the cascade, and every
block that any store was given is an ancestor of the new root. -/
structure OnlyMainChain (levelNodes : ℕ) (isMega : Bool) (t : RoseTree TxPoW) (newroot : BlockPtr)
    (removed : List BlockPtr) (stores : Stores) : Prop where
  ancestors : removed = (t.lineage newroot).tail.reverse
  linked : removed.IsChain fun a b => t.parent? b = some a
  cascadeTip : ∀ parent, t.parent? newroot = some parent →
    ∃ tip, (feed levelNodes isMega stores removed).cascade.getTip = some tip ∧
      newroot.getTxPoW.getParentID = .ok tip.txpow.txPoWID
  fed : ∃ chain : List TxPoW, (∀ b ∈ chain, ∃ a ∈ t.lineage newroot, a.getTxPoW = b) ∧
    (feed levelNodes isMega stores removed).cascade =
      ((stores.cascade.addAll chain).cascadeChain levelNodes).1 ∧
    (feed levelNodes isMega stores removed).archive = stores.archive ++ chain ∧
    (feed levelNodes isMega stores removed).megaMMR =
      if isMega then stores.megaMMR ++ chain else stores.megaMMR

/-- The ancestors of the new root alone are right. -/
theorem onlyMainChain_of_ancestors (levelNodes : ℕ) (isMega : Bool) {tree : BlockTree}
    {t : RoseTree TxPoW} (ht : tree.root = some t) {newroot : BlockPtr} (hof : newroot.Of t)
    (stores : Stores) :
    OnlyMainChain levelNodes isMega t newroot (BlockTree.mainChain (t.lineage newroot).tail) stores where
  ancestors := BlockTree.mainChain_eq _
  linked := BlockTree.isChain_mainChain hof
  cascadeTip := by
    intro parent hparent
    rcases hof.root_or_child with rfl | ⟨p, hp, hc⟩
    · rw [parent?_root] at hparent
      cases hparent
    · rw [parent?_child hp hc, Option.some.injEq] at hparent
      subst hparent
      obtain ⟨ancestors, hline⟩ := exists_lineage_eq_cons hp
      refine ⟨CascadeNode.ofTxPoW p.getTxPoW, ?_, tree.linked t ht p (mem_refs.mpr hp) newroot hc⟩
      rw [feed, foldl_addNode, BlockTree.mainChain_eq, lineage_child hp hc, List.tail_cons, hline,
        List.reverse_cons, txpows, List.map_append]
      simp only
      rw [getTip_cascadeChain]
      exact getTip_addAll_concat _ _ _
  fed := by
    refine ⟨txpows (BlockTree.mainChain (t.lineage newroot).tail), ?_, ?_⟩
    · intro b hb
      obtain ⟨a, ha, rfl⟩ := List.mem_map.mp hb
      rw [BlockTree.mainChain_eq, List.mem_reverse] at ha
      exact ⟨a, List.mem_of_mem_tail ha, rfl⟩
    · rw [feed, foldl_addNode]
      exact ⟨rfl, rfl, rfl⟩

/-- **Only the main chain leaves the tree exactly when it has no side blocks below the new root.** -/
theorem setLength_onlyMainChain_iff (levelNodes : ℕ) (isMega : Bool) (tree : BlockTree)
    (t : RoseTree TxPoW) (tip : BlockPtr) (ht : tree.root = some t) (htip : tree.tip = some tip)
    (fastLink : List BlockPtr) (hlink : fastLink.Perm t.refs) (zMaxLength : ℤ) (stores : Stores) :
    (∃ newroot, (tree.setLength fastLink zMaxLength).2 = some newroot ∧
      OnlyMainChain levelNodes isMega t newroot (tree.setLength fastLink zMaxLength).1 stores) ↔
      BlockTree.NoSideBlocks t tip zMaxLength := by
  obtain ⟨t', ht', hof⟩ := tree.tip_of tip htip
  obtain rfl : t = t' := Option.some.inj (ht.symm.trans ht')
  obtain ⟨newroot, hnew⟩ := BlockTree.exists_newRootOf hof zMaxLength
  have hset : tree.setLength fastLink zMaxLength =
      (BlockTree.removedOf t fastLink newroot, some newroot) := by
    simp only [BlockTree.setLength, ht, htip, hnew]
  have hiff := BlockTree.sideBranches_eq_nil_iff ht hlink hof hnew
  have hnewof : newroot.Of t := of_mem_lineage hof (BlockTree.mem_lineage_of_newRootOf hnew)
  rw [hset, ← hiff]
  constructor
  · rintro ⟨r, hr, hright⟩
    obtain rfl : newroot = r := Option.some.inj hr
    have hlist := hright.ancestors
    rw [BlockTree.removedOf, ← BlockTree.mainChain_eq] at hlist
    exact List.append_cancel_left (hlist.trans (List.append_nil _).symm)
  · intro hnil
    refine ⟨newroot, rfl, ?_⟩
    rw [BlockTree.removedOf, hnil, List.append_nil]
    exact onlyMainChain_of_ancestors levelNodes isMega ht hnewof stores

/-! ## A tree with a side block -/

/-- A block of a super level on a parent that no block before it has a higher level than zero. -/
def sampleOn (parent : TxPoW) (id : List Byte) (number : ℕ) (superBlock : ℤ)
    (h : number < 10 ^ 64 := by decide) : TxPoW :=
  TxPoW.sample id number superBlock
    (fun i => if (i : ℕ) = 0 then parent.txPoWID else MiniData.zeroTxPowID) h

def blockOne : TxPoW :=
  TxPoW.sample [1] 1 0 (fun _ => MiniData.zeroTxPowID) TxPoW.one_lt_limit

def blockTwo : TxPoW := sampleOn blockOne [2] 2 0 TxPoW.two_lt_limit

/-- A block of super level one beside block two. -/
def sideTwo : TxPoW := sampleOn blockOne [0x22] 2 1 TxPoW.two_lt_limit

def blockThree : TxPoW := sampleOn blockTwo [3] 3 0 TxPoW.three_lt_limit

/-- Block one with two children, the first of which has a child. -/
def forkedRoot : RoseTree TxPoW :=
  .node blockOne [.node blockTwo [.node blockThree []], .node sideTwo []]

/-- The same chain without the side block. -/
def straightRoot : RoseTree TxPoW := .node blockOne [.node blockTwo [.node blockThree []]]

def forkedTree : BlockTree :=
  .ofRoot forkedRoot ⟨[0, 0], .node blockThree []⟩ rfl (by decide +kernel)

/-- With the tip as the only block to stay, the side block ends up at the tip of the cascade, in the
archive and in the `MegaMMR`, and the parent of the new root is not the tip of the cascade. -/
theorem setLength_not_onlyMainChain :
    ((forkedTree.setLength forkedRoot.refs 1).1.map fun n => n.getTxPoW.txPoWID) = [⟨[1]⟩, ⟨[2]⟩, ⟨[0x22]⟩] ∧
      (feed 256 true ⟨Cascade.empty, [], []⟩ (forkedTree.setLength forkedRoot.refs 1).1).cascade.getTip.map
        (fun tip => tip.txpow.txPoWID) = some ⟨[0x22]⟩ ∧
      blockThree.getParentID = .ok ⟨[2]⟩ ∧
      ¬ ∃ newroot, (forkedTree.setLength forkedRoot.refs 1).2 = some newroot ∧
        OnlyMainChain 256 true forkedRoot newroot (forkedTree.setLength forkedRoot.refs 1).1
          ⟨Cascade.empty, [], []⟩ := by
  have hlist : ((forkedTree.setLength forkedRoot.refs 1).1.map fun n => n.getTxPoW.txPoWID) =
      [⟨[1]⟩, ⟨[2]⟩, ⟨[0x22]⟩] := by decide +kernel
  refine ⟨hlist, by decide +kernel, by decide +kernel, ?_⟩
  rintro ⟨newroot, hnew, hright⟩
  have hpath : (forkedTree.setLength forkedRoot.refs 1).2.map Ref.path = some [0, 0] := by
    decide +kernel
  rw [hnew, Option.map_some, Option.some.injEq] at hpath
  -- three nodes are on the list, but the new root has two ancestors
  have hlen := congrArg List.length hlist
  rw [hright.ancestors] at hlen
  obtain ⟨path, tree⟩ := newroot
  obtain rfl : path = [0, 0] := hpath
  simp [lineage, walkBack, parent?, forkedRoot, RoseTree.subtree?, RoseTree.children] at hlen

/-- On the straight tree only the main chain leaves. -/
def straightTree : BlockTree :=
  .ofRoot straightRoot ⟨[0, 0], .node blockThree []⟩ rfl (by decide +kernel)

/-- On the straight tree exactly blocks one and two leave, and the stores take them. -/
theorem setLength_onlyMainChain_iff_straightTree :
    ∃ newroot, (straightTree.setLength straightRoot.refs 1).2 = some newroot ∧
      OnlyMainChain 256 true straightRoot newroot (straightTree.setLength straightRoot.refs 1).1
        ⟨Cascade.empty, [], []⟩ := by
  have hroot : straightTree.root = some straightRoot := rfl
  have htip : Ref.Of (⟨[0, 0], .node blockThree []⟩ : BlockPtr) straightRoot := rfl
  have hnew : BlockTree.newRootOf straightRoot ⟨[0, 0], .node blockThree []⟩ 1 =
      some ⟨[0, 0], .node blockThree []⟩ := rfl
  have hside := (BlockTree.sideBranches_eq_nil_iff hroot (.refl _) htip hnew).mp
    (List.isEmpty_iff.mp (by decide +kernel))
  exact (setLength_onlyMainChain_iff 256 true straightTree straightRoot ⟨[0, 0], .node blockThree []⟩
    rfl rfl straightRoot.refs (.refl _) 1 ⟨Cascade.empty, [], []⟩).mpr hside

end TxPoWProcessor

end Minima
