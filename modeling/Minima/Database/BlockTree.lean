import Minima.Lib.RoseTree
import Minima.Objects.TxPoW

/-! # `setLength`: which blocks leave the tree

When the heaviest branch has grown long enough the tree gets a new root further up, and the blocks
before it leave the tree for the cascade, the archive and the `MegaMMR`. `setLength` makes the list
of these blocks: the chain behind the new root first, and then every other block of the tree with a
smaller number.

* **`BlockTree`** — a tree of blocks that are linked by their parent ids.
* **`BlockTree.setLength`** — the list of the source and the new root.
* **`BlockTree.newRootOf_eq`** — the new root stands `zMaxLength` blocks down the branch. -/

namespace RoseTree.Ref

/-- `getTxPoW` of a node of a tree of blocks. -/
def getTxPoW (node : RoseTree.Ref Minima.TxPoW) : Minima.TxPoW := node.tree.value

/-- `getBlockNumber`. -/
def getBlockNumber (node : RoseTree.Ref Minima.TxPoW) : Minima.MiniNumber :=
  node.getTxPoW.getBlockNumber

end RoseTree.Ref

namespace Minima

open RoseTree

/-- A `shared_ptr` to a node of the tree of blocks. -/
abbrev BlockPtr := Ref TxPoW

/-- **The tree of blocks with its tip.** A block comes in under the node with its parent id, and only when
no node has its id; the tip is one of the nodes. Numbers go up along every branch where `checkTxPoWBlock` let
the blocks in; `processSyncBlock` adds those of an IBD without a look at the number of the parent. -/
structure BlockTree where
  root : Option (RoseTree TxPoW)
  tip : Option BlockPtr
  tip_of : ∀ node ∈ tip, ∃ t ∈ root, node.Of t
  tip_of_root : root.isSome → tip.isSome
  linked : ∀ t ∈ root, ∀ parent ∈ t.refs, ∀ child ∈ parent.children,
    child.getTxPoW.getParentID = .ok parent.getTxPoW.txPoWID
  numbered : ∀ t ∈ root, ∀ parent ∈ t.refs, ∀ child ∈ parent.children,
    parent.getBlockNumber.toRat < child.getBlockNumber.toRat
  distinct : ∀ t ∈ root, ∀ a ∈ t.refs, ∀ b ∈ t.refs, a.getTxPoW.txPoWID = b.getTxPoW.txPoWID → a = b

namespace BlockTree

/-- The checks behind a `BlockTree`, for a tree that is given. -/
def wellFormed (t : RoseTree TxPoW) : Bool :=
  decide (∀ parent ∈ t.refs, ∀ child ∈ parent.children,
    child.getTxPoW.getParentID = .ok parent.getTxPoW.txPoWID ∧
      parent.getBlockNumber.isLess child.getBlockNumber = true) &&
  decide (t.refs.map fun a => a.getTxPoW.txPoWID).Nodup

/-- A tree that passes the checks, with one of its nodes as the tip. -/
def ofRoot (t : RoseTree TxPoW) (tip : BlockPtr) (htip : tip.Of t) (h : wellFormed t = true) :
    BlockTree where
  root := some t
  tip := some tip
  tip_of := by
    intro node hnode
    obtain rfl := Option.some.inj hnode
    exact ⟨t, rfl, htip⟩
  tip_of_root _ := rfl
  linked := by
    intro root hroot parent hp child hc
    obtain rfl := Option.some.inj hroot
    rw [wellFormed, Bool.and_eq_true, decide_eq_true_eq] at h
    exact (h.1 parent hp child hc).1
  numbered := by
    intro root hroot parent hp child hc
    obtain rfl := Option.some.inj hroot
    rw [wellFormed, Bool.and_eq_true, decide_eq_true_eq] at h
    exact (MiniNumber.isLess_iff _ _).mp (h.1 parent hp child hc).2
  distinct := by
    intro root hroot a ha b hb
    obtain rfl := Option.some.inj hroot
    rw [wellFormed, Bool.and_eq_true, decide_eq_true_eq, decide_eq_true_eq] at h
    exact List.inj_on_of_nodup_map h.2 ha hb

/-- The first loop of `setLength`, over the nodes from the tip back: stop at the node where the
counter reaches the length. -/
def newRootLoop (zMaxLength : ℤ) : ℤ → Option BlockPtr → List BlockPtr → Option BlockPtr
  | _, newroot, [] => newroot
  | counter, _, current :: rest =>
    if zMaxLength ≤ counter + 1 then some current
    else newRootLoop zMaxLength (counter + 1) (some current) rest

/-- The second loop: the ancestors of the new root, each put in front of the ones before. -/
def mainChain (ancestors : List BlockPtr) : List BlockPtr :=
  ancestors.foldl (fun removed cascade => cascade :: removed) []

/-- The third loop, over `mFastLink` in the order of the hash map: nodes below the new root that are
not on the main chain. -/
def sideBranches (fastLink : List BlockPtr) (newroot : BlockPtr) (removed : List BlockPtr) :
    List BlockPtr :=
  fastLink.filter fun node =>
    node.getBlockNumber.isLess newroot.getBlockNumber &&
      !removed.any fun n => n.getTxPoW.getTxPoWID == node.getTxPoW.getTxPoWID

/-- The new root of `setLength` in a tree with a tip. -/
def newRootOf (t : RoseTree TxPoW) (tip : BlockPtr) (zMaxLength : ℤ) : Option BlockPtr :=
  newRootLoop zMaxLength 0 none (t.lineage tip)

/-- The list that `setLength` returns for a new root. -/
def removedOf (t : RoseTree TxPoW) (fastLink : List BlockPtr) (newroot : BlockPtr) : List BlockPtr :=
  let removed := mainChain (t.lineage newroot).tail
  removed ++ sideBranches fastLink newroot removed

/-- **`setLength`**: the removed nodes and the new root. `fastLink` is `mFastLink` in the order of
its iteration. -/
def setLength (tree : BlockTree) (fastLink : List BlockPtr) (zMaxLength : ℤ) :
    List BlockPtr × Option BlockPtr :=
  match tree.root, tree.tip with
  | some t, some tip =>
    match newRootOf t tip zMaxLength with
    | some newroot => (removedOf t fastLink newroot, some newroot)
    | none => ([], none)
  | _, _ => ([], none)

/-! ## The new root -/

theorem newRootLoop_eq (zMaxLength counter : ℤ) (newroot : Option BlockPtr) (nodes : List BlockPtr) :
    newRootLoop zMaxLength counter newroot nodes =
      ((nodes.take (max 1 (zMaxLength - counter).toNat)).getLast?).or newroot := by
  induction nodes generalizing counter newroot with
  | nil =>
    rw [newRootLoop, List.take_nil]
    rfl
  | cons current rest ih =>
    rw [newRootLoop]
    by_cases h : zMaxLength ≤ counter + 1
    · rw [if_pos h, show max 1 (zMaxLength - counter).toNat = 1 by omega]
      rfl
    · rw [if_neg h, ih, show max 1 (zMaxLength - counter).toNat =
        max 1 (zMaxLength - (counter + 1)).toNat + 1 by omega, List.take_succ_cons]
      cases rest with
      | nil => simp
      | cons next rest =>
        have htake : max 1 (zMaxLength - (counter + 1)).toNat =
            (max 1 (zMaxLength - (counter + 1)).toNat - 1) + 1 := by omega
        rw [htake, List.take_succ_cons, List.getLast?_cons_cons, List.getLast?_eq_some_getLast
          (List.cons_ne_nil _ _)]
        rfl

/-- **The blocks that stay on the heaviest branch:** `zMaxLength` of them, at least the tip. -/
def kept (t : RoseTree TxPoW) (tip : BlockPtr) (zMaxLength : ℤ) : List BlockPtr :=
  (t.lineage tip).take (max 1 zMaxLength.toNat)

/-- The new root is the last block that stays. -/
theorem newRootOf_eq (t : RoseTree TxPoW) (tip : BlockPtr) (zMaxLength : ℤ) :
    newRootOf t tip zMaxLength = (kept t tip zMaxLength).getLast? := by
  rw [newRootOf, newRootLoop_eq, sub_zero, Option.or_none, kept]

/-- The new root is a node of the heaviest branch. -/
theorem mem_lineage_of_newRootOf {t : RoseTree TxPoW} {tip newroot : BlockPtr} {zMaxLength : ℤ}
    (h : newRootOf t tip zMaxLength = some newroot) : newroot ∈ t.lineage tip := by
  rw [newRootOf_eq] at h
  exact List.mem_of_mem_take (List.mem_of_getLast? h)

theorem exists_newRootOf {t : RoseTree TxPoW} {tip : BlockPtr} (htip : tip.Of t) (zMaxLength : ℤ) :
    ∃ newroot, newRootOf t tip zMaxLength = some newroot := by
  obtain ⟨ancestors, hline⟩ := exists_lineage_eq_cons htip
  rw [newRootOf_eq, kept, hline]
  refine ⟨_, List.getLast?_eq_some_getLast ?_⟩
  rw [ne_eq, List.take_eq_nil_iff]
  simp

/-! ## The removed nodes -/

theorem mainChain_eq (ancestors : List BlockPtr) : mainChain ancestors = ancestors.reverse := by
  have h : ∀ acc : List BlockPtr,
      ancestors.foldl (fun removed cascade => cascade :: removed) acc = ancestors.reverse ++ acc := by
    induction ancestors with
    | nil => exact fun acc => rfl
    | cons a as ih =>
      intro acc
      rw [List.foldl_cons, ih, List.reverse_cons, List.append_assoc]
      rfl
  rw [mainChain, h, List.append_nil]

/-- Each ancestor is the parent of the next. -/
theorem isChain_mainChain {t : RoseTree TxPoW} {node : BlockPtr} (hnode : node.Of t) :
    (mainChain (t.lineage node).tail).IsChain fun a b => t.parent? b = some a := by
  rw [mainChain_eq, List.isChain_reverse]
  have hline : (t.lineage node).IsChain fun a b => t.parent? a = some b := by
    refine Ref.Of.induct (P := fun r => (t.lineage r).IsChain fun a b => t.parent? a = some b)
      ?_ (fun r c hr hc ih => ?_) hnode
    · rw [lineage_root]
      exact .singleton _
    · rw [lineage_child hr hc]
      obtain ⟨ancestors, hline⟩ := exists_lineage_eq_cons hr
      rw [hline] at ih ⊢
      exact .cons_cons (parent?_child hr hc) ih
  exact hline.tail

/-- **No block off the chain of the new root has a smaller number:** every block of the tree below
the last one that stays is an ancestor of it. -/
def NoSideBlocks (t : RoseTree TxPoW) (tip : BlockPtr) (zMaxLength : ℤ) : Prop :=
  ∀ newroot ∈ (kept t tip zMaxLength).getLast?, ∀ node ∈ t.refs,
    node.getBlockNumber.toRat < newroot.getBlockNumber.toRat → node ∈ t.lineage newroot

/-- Without side blocks the third loop of `setLength` finds nothing. -/
theorem sideBranches_eq_nil {t : RoseTree TxPoW} {tip newroot : BlockPtr} {zMaxLength : ℤ}
    {fastLink : List BlockPtr} (hlink : fastLink.Perm t.refs) (htip : tip.Of t)
    (hnew : newRootOf t tip zMaxLength = some newroot) (h : NoSideBlocks t tip zMaxLength) :
    sideBranches fastLink newroot (mainChain (t.lineage newroot).tail) = [] := by
  rw [newRootOf_eq] at hnew
  have hmem : newroot ∈ t.lineage tip := mem_lineage_of_newRootOf (newRootOf_eq t tip _ ▸ hnew)
  obtain ⟨ancestors, hline⟩ := exists_lineage_eq_cons (of_mem_lineage htip hmem)
  rw [sideBranches, List.filter_eq_nil_iff]
  intro node hnode
  rw [Bool.and_eq_true, MiniNumber.isLess_iff, Bool.not_eq_true', not_and, Bool.not_eq_false]
  intro hlt
  have hanc := h newroot hnew node (hlink.mem_iff.mp hnode) hlt
  rw [hline] at hanc ⊢
  rcases List.mem_cons.mp hanc with rfl | hanc
  · exact absurd hlt (lt_irrefl _)
  · rw [mainChain_eq, List.tail_cons, List.any_eq_true]
    exact ⟨node, List.mem_reverse.mpr hanc, by simp⟩

/-- **The third loop of `setLength` finds nothing exactly when there are no side blocks.** -/
theorem sideBranches_eq_nil_iff {tree : BlockTree} {t : RoseTree TxPoW} (ht : tree.root = some t)
    {tip newroot : BlockPtr} {zMaxLength : ℤ} {fastLink : List BlockPtr}
    (hlink : fastLink.Perm t.refs) (htip : tip.Of t) (hnew : newRootOf t tip zMaxLength = some newroot) :
    sideBranches fastLink newroot (mainChain (t.lineage newroot).tail) = [] ↔
      NoSideBlocks t tip zMaxLength := by
  refine ⟨fun h => ?_, sideBranches_eq_nil hlink htip hnew⟩
  intro r hr node hnode hlt
  rw [newRootOf_eq] at hnew
  obtain rfl : r = newroot := Option.some.inj (hr.symm.trans hnew)
  have hof : r.Of t :=
    of_mem_lineage htip (mem_lineage_of_newRootOf (newRootOf_eq t tip _ ▸ hnew))
  rw [sideBranches, List.filter_eq_nil_iff] at h
  have hfound := h node (hlink.mem_iff.mpr hnode)
  rw [Bool.and_eq_true, MiniNumber.isLess_iff, Bool.not_eq_true', not_and, Bool.not_eq_false,
    List.any_eq_true] at hfound
  obtain ⟨a, ha, hid⟩ := hfound hlt
  rw [mainChain_eq, List.mem_reverse] at ha
  have haof : a.Of t := of_mem_lineage hof (List.mem_of_mem_tail ha)
  -- ids are distinct, so the node with this id is the ancestor itself
  have heq : a = node := tree.distinct t ht a (mem_refs.mpr haof) node hnode
    (MiniData.to0xString_injective (beq_iff_eq.mp hid))
  exact heq ▸ List.mem_of_mem_tail ha

end BlockTree

end Minima
