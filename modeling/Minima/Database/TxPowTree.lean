import Minima.Lib.RoseTree
import Minima.Base.MiniNumber

/-! # `TxPowTree`: the tree of blocks and its heaviest branch

The node keeps the last blocks in a tree. After every change `recalculateTree` gives each node a
total weight and picks the tip of the chain from these totals.

* **`TxPowTree.recalculateTree`** — resets all totals to the blocks' own weights, sorts the nodes by
  block number, adds the children's totals to each node in that order, and walks to the tip.
* **`TxPowTree.GhostTip`** — what the totals and the tip are meant to be.
* **`recalculateTree_ghostTip_iff`** — they are so exactly when no block two or more levels below
  another one weighs anything, and no running sum needs more than 64 digits. -/

namespace Minima

/-- What the tree reads of a block: its number, and `MiniNumber(getWeight())`. -/
structure TreeBlock where
  blockNumber : MiniNumber
  weight : MiniNumber
  weight_nonneg : weight.IsNonneg

/-- `TxPoWTreeNode`: a block with its children, in the order in which they were added. -/
abbrev TxPoWTreeNode := RoseTree TreeBlock

/-- A `shared_ptr` to a node of the tree. -/
abbrev NodePtr := RoseTree.Ref TreeBlock

/-- The `mTotalWeight` of all nodes. -/
abbrev TotalWeights := List ℕ → MiniNumber

/-- **The tree of blocks,** with numbers that go up along every branch. `checkTxPoWBlock` asks for the
number after the parent's. `processSyncBlock`, which adds the blocks of an IBD without this check, compares
the number with that of the root only. -/
structure TxPowTree where
  root : Option TxPoWTreeNode
  numbered : ∀ t ∈ root, ∀ parent : NodePtr, parent.Of t → ∀ child ∈ parent.children,
    parent.tree.value.blockNumber.toRat < child.tree.value.blockNumber.toRat

namespace TxPoWTreeNode

/-- The rational a block weighs. -/
def weight (b : TreeBlock) : ℚ := b.weight.toRat

theorem weight_nonneg (b : TreeBlock) : 0 ≤ weight b := b.weight_nonneg.toRat_nonneg

/-- `setTotalWeight`: an assignment, which applies the limits again. -/
def setTotalWeight (totals : TotalWeights) (node : NodePtr) (weight : MiniNumber) :
    Result TotalWeights := do
  let w ← weight.copy
  return Function.update totals node.path w

/-- `addToTotalWeight`. -/
def addToTotalWeight (totals : TotalWeights) (node : NodePtr) (weight : MiniNumber) :
    Result TotalWeights := do
  let sum ← (totals node.path).add weight
  let w ← sum.copy
  return Function.update totals node.path w

end TxPoWTreeNode

namespace TxPowTree

/-! ## `traverseTree` -/

section Traverse

variable {σ α : Type} (action : σ → RoseTree.Ref α → Result σ)

/-- The loop of `traverseTree` over its stack. The fuel bounds the number of rounds, one for each
node (`traverseTree_eq`). -/
def traverseLoop : ℕ → List (RoseTree.Ref α) → σ → Result σ
  | 0, _, s => .ok s
  | _ + 1, [], s => .ok s
  | fuel + 1, node :: stack, s => do
    let s ← action s node
    traverseLoop fuel (node.children.foldl (fun stack child => child :: stack) stack) s

/-- `traverseTree` with an action that never finishes early. -/
def traverseTree (root : RoseTree α) (s : σ) : Result σ :=
  traverseLoop action (root.refs.length) [root.rootRef] s

end Traverse

/-! ## `recalculateTree` -/

/-- `ResetAction::runAction`: the base weight of the node, and the node into `allnodes`. -/
def resetAction (s : TotalWeights × List NodePtr) (node : NodePtr) :
    Result (TotalWeights × List NodePtr) := do
  let totals ← TxPoWTreeNode.setTotalWeight s.1 node node.tree.value.weight
  return (totals, s.2 ++ [node])

/-- The comparator that `recalculateTree` gives to `std::sort`. -/
def comesBefore (a b : NodePtr) : Bool :=
  b.tree.value.blockNumber.compareTo a.tree.value.blockNumber > 0

/-- One node of the accumulation: the current totals of its children, added in turn. -/
def addChildren (totals : TotalWeights) (node : NodePtr) : Result TotalWeights :=
  node.children.foldlM
    (fun totals child => TxPoWTreeNode.addToTotalWeight totals node (totals child.path)) totals

/-- The `for` loop that finds the child with the greatest total; a later child has to be strictly
heavier than the best one so far. -/
def bestChild (totals : TotalWeights) (first : NodePtr) (others : List NodePtr) : NodePtr :=
  others.foldl
    (fun best child => if (totals child.path).compareTo (totals best.path) > 0 then child else best)
    first

/-- The `while` loop that moves `mTip` down; the second component is `mLength`. The fuel bounds the
number of rounds. -/
def tipLoop (totals : TotalWeights) : ℕ → NodePtr → ℕ → NodePtr × ℕ
  | 0, tip, length => (tip, length)
  | fuel + 1, tip, length =>
    match tip.children with
    | [] => (tip, length + 1)
    | first :: others => tipLoop totals fuel (bestChild totals first others) (length + 1)

/-- What `recalculateTree` leaves behind: `mTotalWeight` of all nodes, `mTip` and `mLength`. -/
structure Recalculated where
  totals : TotalWeights
  tip : Option NodePtr
  length : ℕ

/-- `recalculateTree`, with `sort` for `std::sort` and `old` for the totals of before. -/
def recalculateTree (sort : (NodePtr → NodePtr → Bool) → List NodePtr → List NodePtr)
    (tree : TxPowTree) (old : TotalWeights) : Result Recalculated :=
  match tree.root with
  | none => .ok ⟨old, none, 0⟩
  | some root => do
    let (totals, allnodes) ← traverseTree resetAction root (old, [])
    let totals ← (sort comesBefore allnodes).foldlM addChildren totals
    let (tip, length) := tipLoop totals root.refs.length root.rootRef 0
    return ⟨totals, some tip, length⟩

/-- **What `std::sort` promises:** a rearrangement in which nothing comes after something it should
come before. Equivalent elements may be left in any order. -/
def StdSort (sort : (NodePtr → NodePtr → Bool) → List NodePtr → List NodePtr) : Prop :=
  ∀ nodes, (sort comesBefore nodes).Perm nodes ∧
    (sort comesBefore nodes).Pairwise fun a b => comesBefore b a = false

/-! ## What the totals and the tip should be -/

/-- **The GHOST rule.** The total of a node is the weight of its subtree, and the tip is reached by
moving to the child with the heaviest subtree, the first one among equals, until a leaf. -/
def GhostTip (tree : TxPowTree) (r : Recalculated) : Prop :=
  match tree.root with
  | none => r.tip = none
  | some root =>
    (∀ node : NodePtr, node.Of root →
      (r.totals node.path).toRat = node.tree.total TxPoWTreeNode.weight) ∧
    ∃ tip : NodePtr, r.tip = some tip ∧ tip.Of root ∧
      RoseTree.HeaviestPath TxPoWTreeNode.weight root tip.path

/-- **No weight two levels down, and no sum that has to be truncated.** -/
def WeighsTwoLevels (tree : TxPowTree) : Prop :=
  ∀ root ∈ tree.root, ∀ node : NodePtr, node.Of root →
    (∀ child ∈ node.children, ∀ grandchild ∈ child.children,
      TxPoWTreeNode.weight grandchild.tree.value = 0) ∧
    ∀ k, ∃ x : MiniNumber, x.IsNonneg ∧ x.toRat =
      TxPoWTreeNode.weight node.tree.value +
        ((node.tree.children.take k).map fun c => TxPoWTreeNode.weight c.value).sum

/-! ## The traversal meets every node once -/

theorem foldl_push {α : Type} (stack children : List (RoseTree.Ref α)) :
    children.foldl (fun stack child => child :: stack) stack = children.reverse ++ stack := by
  induction children generalizing stack with
  | nil => rfl
  | cons c cs ih => simp [ih]

/-- **The stack loop performs the action once on each node below the stack,** in some order. -/
theorem traverseLoop_eq {σ : Type} (action : σ → NodePtr → Result σ) (fuel : ℕ) :
    ∀ stack : List NodePtr,
      (stack.flatMap fun r => r.tree.refsFrom r.path).length ≤ fuel →
      ∃ visited : List NodePtr, visited.Perm (stack.flatMap fun r => r.tree.refsFrom r.path) ∧
        ∀ s, traverseLoop action fuel stack s = visited.foldlM action s := by
  induction fuel with
  | zero =>
    intro stack h
    refine ⟨_, .refl _, fun s => ?_⟩
    rw [List.length_eq_zero_iff.mp (Nat.le_zero.mp h)]
    rfl
  | succ fuel ih =>
    intro stack h
    cases stack with
    | nil => exact ⟨[], by simp, fun s => rfl⟩
    | cons node stack =>
      -- popping the node and pushing its children keeps everything but the node itself
      have hperm : ((node.children.reverse ++ stack).flatMap fun r => r.tree.refsFrom r.path).Perm
          ((node.children ++ stack).flatMap fun r => r.tree.refsFrom r.path) :=
        (List.Perm.append_right stack (List.reverse_perm _)).flatMap_right _
      have hsplit : ((node :: stack).flatMap fun r : NodePtr => r.tree.refsFrom r.path) =
          node :: ((node.children ++ stack).flatMap fun r => r.tree.refsFrom r.path) := by
        rw [List.flatMap_cons, RoseTree.refsFrom_eq, List.flatMap_append, List.cons_append]
      rw [hsplit, List.length_cons, ← hperm.length_eq] at h
      obtain ⟨visited, hvisited, heq⟩ := ih _ (Nat.le_of_succ_le_succ h)
      refine ⟨node :: visited, ?_, fun s => ?_⟩
      · rw [hsplit]
        exact (hvisited.trans hperm).cons node
      · rw [traverseLoop, List.foldlM_cons, foldl_push]
        simp only [heq]

theorem traverseTree_eq {σ : Type} (action : σ → NodePtr → Result σ) (root : TxPoWTreeNode) :
    ∃ visited : List NodePtr, visited.Perm root.refs ∧
      ∀ s, traverseTree action root s = visited.foldlM action s := by
  have hstack : ([root.rootRef].flatMap fun r => r.tree.refsFrom r.path) = root.refs := by
    simp [RoseTree.rootRef, RoseTree.refs]
  obtain ⟨visited, hperm, heq⟩ := traverseLoop_eq action root.refs.length [root.rootRef] (by rw [hstack])
  exact ⟨visited, hstack ▸ hperm, heq⟩

/-! ## The totals -/

/-- The reset gives every visited node its own weight and lists it. -/
theorem foldlM_resetAction (visited : List NodePtr)
    (hpath : visited.Pairwise fun a b => a.path ≠ b.path) :
    ∀ totals nodes, ∃ totals', visited.foldlM resetAction (totals, nodes) =
        .ok (totals', nodes ++ visited) ∧
      (∀ p, (∀ r ∈ visited, r.path ≠ p) → totals' p = totals p) ∧
      ∀ r ∈ visited, totals' r.path = r.tree.value.weight := by
  induction visited with
  | nil => exact fun totals nodes => ⟨totals, by simp [pure, Except.pure], by simp, by simp⟩
  | cons node visited ih =>
    intro totals nodes
    obtain ⟨hnode, hrest⟩ := List.pairwise_cons.mp hpath
    obtain ⟨totals', heq, hother, hown⟩ := ih hrest
      (Function.update totals node.path node.tree.value.weight) (nodes ++ [node])
    refine ⟨totals', ?_, fun p hp => ?_, fun r hr => ?_⟩
    · rw [List.foldlM_cons, resetAction, TxPoWTreeNode.setTotalWeight,
        MiniNumber.copy_of_canonical node.tree.value.weight_nonneg.canonical]
      simpa using heq
    · rw [hother p fun r hr => hp r (by simp [hr]), Function.update_of_ne (hp node (by simp)).symm]
    · obtain rfl | hr := List.mem_cons.mp hr
      · rw [hother _ fun s hs => (hnode s hs).symm, Function.update_self]
      · exact hown r hr

theorem addToTotalWeight_eq (totals : TotalWeights) (node : NodePtr) (w : MiniNumber) :
    TxPoWTreeNode.addToTotalWeight totals node w =
      (fun sum => Function.update totals node.path sum) <$> (totals node.path).add w := by
  rw [TxPoWTreeNode.addToTotalWeight]
  cases h : (totals node.path).add w with
  | error e => rfl
  | ok sum =>
    rw [Result.ok_bind, MiniNumber.copy_of_canonical (MiniNumber.add_canonical h)]
    rfl

/-- One node of the accumulation changes its own total only, by its children's totals in turn. -/
theorem addChildren_eq_ok {totals totals' : TotalWeights} {node : NodePtr}
    (h : addChildren totals node = .ok totals') :
    ∃ v, (node.children.map fun c => totals c.path).foldlM MiniNumber.add (totals node.path) = .ok v ∧
      totals' = Function.update totals node.path v := by
  have hne : ∀ c ∈ node.children, c.path ≠ node.path := fun c hc => RoseTree.Ref.mem_children_ne hc
  rw [addChildren] at h
  revert hne
  generalize node.children = cs at h ⊢
  intro hne
  induction cs generalizing totals with
  | nil =>
    obtain rfl : totals = totals' := by simpa using h
    exact ⟨totals node.path, rfl, (Function.update_eq_self _ _).symm⟩
  | cons c cs ih =>
    rw [List.foldlM_cons, Result.bind_eq_ok, addToTotalWeight_eq] at h
    obtain ⟨mid, hmid, h⟩ := h
    obtain ⟨sum, hsum, rfl⟩ := Result.map_eq_ok.mp hmid
    obtain ⟨v, hv, rfl⟩ := ih h fun d hd => hne d (by simp [hd])
    refine ⟨v, ?_, by rw [Function.update_idem]⟩
    rw [List.map_cons, List.foldlM_cons, hsum, Result.ok_bind]
    -- the children's totals are not touched on the way
    rw [Function.update_self] at hv
    convert hv using 2
    exact List.map_congr_left fun d hd => (Function.update_of_ne (hne d (by simp [hd])) _ _).symm

/-- **Nodes before their children: every node adds up totals that are still the children's own
weights.** -/
theorem foldlM_addChildren {order : List NodePtr} {totals totals' : TotalWeights}
    (hpath : order.Pairwise fun a b => a.path ≠ b.path)
    (hparent : order.Pairwise fun a b => a ∉ b.children)
    (hsame : ∀ a ∈ order, ∀ b ∈ order, ∀ c ∈ b.children, c.path = a.path → c = a)
    (h : order.foldlM addChildren totals = .ok totals') :
    (∀ p, (∀ r ∈ order, r.path ≠ p) → totals' p = totals p) ∧
      ∀ r ∈ order, (r.children.map fun c => totals c.path).foldlM MiniNumber.add (totals r.path) =
        .ok (totals' r.path) := by
  induction order generalizing totals with
  | nil =>
    obtain rfl : totals = totals' := by simpa using h
    simp
  | cons node order ih =>
    rw [List.foldlM_cons, Result.bind_eq_ok] at h
    obtain ⟨mid, hmid, h⟩ := h
    obtain ⟨v, hv, rfl⟩ := addChildren_eq_ok hmid
    obtain ⟨hnode, hrest⟩ := List.pairwise_cons.mp hpath
    obtain ⟨hpnode, hprest⟩ := List.pairwise_cons.mp hparent
    obtain ⟨hother, hown⟩ := ih hrest hprest
      (fun a ha b hb => hsame a (by simp [ha]) b (by simp [hb])) h
    refine ⟨fun p hp => ?_, fun r hr => ?_⟩
    · rw [hother p fun r hr => hp r (by simp [hr]), Function.update_of_ne (hp node (by simp)).symm]
    · obtain rfl | hr := List.mem_cons.mp hr
      · rw [hother _ fun s hs => (hnode s hs).symm, Function.update_self, hv]
      · -- `node` is not below `r`, so what `r` adds up is as it was
        rw [← hown r hr, Function.update_of_ne (hnode r hr).symm]
        congr 1
        refine List.map_congr_left fun c hc => (Function.update_of_ne (fun hcn => ?_) _ _).symm
        exact hpnode r hr (hsame node (by simp) r (by simp [hr]) c hc hcn ▸ hc)

/-- **The totals of a run of `recalculateTree`:** each node ends with the sum of its own weight and
the own weights of its children. -/
theorem recalculateTree_totals {sort : (NodePtr → NodePtr → Bool) → List NodePtr → List NodePtr}
    (hsort : StdSort sort) {tree : TxPowTree} {root : TxPoWTreeNode} (hroot : tree.root = some root)
    {old : TotalWeights} {r : Recalculated} (h : recalculateTree sort tree old = .ok r) :
    (∀ node : NodePtr, node.Of root →
      (node.tree.children.map fun c => c.value.weight).foldlM MiniNumber.add node.tree.value.weight =
        .ok (r.totals node.path)) ∧
      r.tip = some (tipLoop r.totals root.refs.length root.rootRef 0).1 := by
  obtain ⟨visited, hperm, htraverse⟩ := traverseTree_eq resetAction root
  have hof : ∀ a ∈ visited, a.Of root := fun a ha => RoseTree.mem_refs.mp (hperm.mem_iff.mp ha)
  -- a path has one node, so different nodes have different paths
  have hpaths : ∀ l : List NodePtr, l.Perm root.refs → l.Pairwise fun a b => a.path ≠ b.path := by
    intro l hl
    refine (hl.nodup_iff.mpr (RoseTree.nodup_refs root)).imp_of_mem fun ha hb hne heq => hne ?_
    exact (RoseTree.mem_refs.mp (hl.mem_iff.mp ha)).ext (RoseTree.mem_refs.mp (hl.mem_iff.mp hb)) heq
  obtain ⟨totals, hreset, -, hown⟩ := foldlM_resetAction visited (hpaths visited hperm) old []
  simp only [recalculateTree, hroot, htraverse, hreset, Result.ok_bind, List.nil_append] at h
  obtain ⟨totals', hadd, h⟩ := Result.bind_eq_ok.mp h
  obtain rfl := Result.pure_eq_ok.mp h
  obtain ⟨hsorted, hpair⟩ := hsort visited
  have hof' : ∀ a ∈ sort comesBefore visited, a.Of root := fun a ha => hof a (hsorted.mem_iff.mp ha)
  -- the comparator sorts upwards: a child is never before its parent
  have hparent : (sort comesBefore visited).Pairwise fun a b => a ∉ b.children := by
    refine hpair.imp_of_mem fun {a b} ha hb hab hmem => ?_
    have hlt := tree.numbered root hroot b (hof' b hb) a hmem
    rw [comesBefore, decide_eq_false_iff_not, MiniNumber.compareTo_pos] at hab
    exact hab hlt
  obtain ⟨-, hsum⟩ := foldlM_addChildren (hpaths _ (hsorted.trans hperm)) hparent
    (fun a ha b hb c hc => ((hof' b hb).child hc).ext (hof' a ha)) hadd
  refine ⟨fun node hnode => ?_, rfl⟩
  have hin : ∀ a : NodePtr, a.Of root → a ∈ visited := fun a ha =>
    hperm.mem_iff.mpr (RoseTree.mem_refs.mpr ha)
  rw [← hsum node (hsorted.mem_iff.mpr (hin node hnode)), hown node (hin node hnode),
    ← RoseTree.Ref.map_children node fun c => c.value.weight]
  congr 1
  exact List.map_congr_left fun c hc => (hown c (hin c (hnode.child hc))).symm

/-! ## The tip -/

/-- **The first child of greatest total.** -/
theorem bestChild_spec (totals : TotalWeights) (first : NodePtr) (others : List NodePtr) :
    ∃ i : ℕ, (first :: others)[i]? = some (bestChild totals first others) ∧
      (∀ d ∈ first :: others,
        (totals d.path).toRat ≤ (totals (bestChild totals first others).path).toRat) ∧
      ∀ j < i, ∀ d, (first :: others)[j]? = some d →
        (totals d.path).toRat < (totals (bestChild totals first others).path).toRat := by
  induction others using List.reverseRecOn with
  | nil => exact ⟨0, rfl, by simp [bestChild], by simp⟩
  | append_singleton others c ih =>
    obtain ⟨i, hi, hmax, hfirst⟩ := ih
    have hlt : i < (first :: others).length := (List.getElem?_eq_some_iff.mp hi).1
    have hstep : bestChild totals first (others ++ [c]) =
        if (totals c.path).compareTo (totals (bestChild totals first others).path) > 0 then c
        else bestChild totals first others := by simp [bestChild, List.foldl_append]
    rw [← List.cons_append, hstep]
    split_ifs with hc
    · rw [MiniNumber.compareTo_pos] at hc
      refine ⟨(first :: others).length, by simp, fun d hd => ?_, fun j hj d hd => ?_⟩
      · obtain hd | hd := List.mem_append.mp hd
        · exact (hmax d hd).trans hc.le
        · obtain rfl : d = c := by simpa using hd
          exact le_rfl
      · rw [List.getElem?_append_left hj] at hd
        exact (hmax d (List.mem_of_getElem? hd)).trans_lt hc
    · rw [MiniNumber.compareTo_pos, not_lt] at hc
      refine ⟨i, by rw [List.getElem?_append_left hlt, hi], fun d hd => ?_, fun j hj d hd => ?_⟩
      · obtain hd | hd := List.mem_append.mp hd
        · exact hmax d hd
        · obtain rfl : d = c := by simpa using hd
          exact hc
      · rw [List.getElem?_append_left (hj.trans hlt)] at hd
        exact hfirst j hj d hd

/-- **Right totals lead to the right tip.** -/
theorem tipLoop_heaviest {root : TxPoWTreeNode} {totals : TotalWeights}
    (htotals : ∀ node : NodePtr, node.Of root →
      (totals node.path).toRat = node.tree.total TxPoWTreeNode.weight) (fuel : ℕ) :
    ∀ (node : NodePtr) (length : ℕ), node.Of root → node.tree.refs.length ≤ fuel →
      (tipLoop totals fuel node length).1.Of root ∧
      ∃ q, (tipLoop totals fuel node length).1.path = node.path ++ q ∧
        RoseTree.HeaviestPath TxPoWTreeNode.weight node.tree q := by
  induction fuel with
  | zero =>
    intro node length _ hfuel
    exact absurd (RoseTree.length_refs_pos node.tree) (by omega)
  | succ fuel ih =>
    intro node length hnode hfuel
    rw [tipLoop]
    split
    · rename_i hleaf
      have hlen := congrArg List.length hleaf
      exact ⟨hnode, [], by simp, .leaf (by simpa [RoseTree.Ref.children] using hlen)⟩
    · rename_i first others hcs
      obtain ⟨i, hi, hmax, hfirst⟩ := bestChild_spec totals first others
      rw [← hcs] at hi hmax hfirst
      set best := bestChild totals first others
      have hbest : best ∈ node.children := List.mem_of_getElem? hi
      obtain ⟨hof, q, hq, hwalk⟩ := ih best (length + 1) (hnode.child hbest)
        (by have := RoseTree.length_refs_child hbest; omega)
      obtain ⟨c, hc, hceq⟩ : ∃ c, node.tree.children[i]? = some c ∧ ⟨node.path ++ [i], c⟩ = best := by
        simpa [RoseTree.Ref.children] using hi
      -- the children's totals, read off the tree
      have hval : ∀ j d, node.tree.children[j]? = some d →
          (totals (node.path ++ [j])).toRat = d.total TxPoWTreeNode.weight ∧
            node.children[j]? = some ⟨node.path ++ [j], d⟩ := fun j d hd =>
        ⟨htotals ⟨node.path ++ [j], d⟩
          (hnode.child (RoseTree.Ref.mem_children.mpr ⟨j, rfl, hd⟩)), by
          simp [RoseTree.Ref.children, hd]⟩
      have hpath : best.path = node.path ++ [i] := hceq ▸ rfl
      rw [← hceq] at hmax hfirst hwalk
      refine ⟨hof, i :: q, by rw [hq, hpath, List.append_assoc, List.singleton_append], .step hc (fun d hd => ?_) (fun j hj d hd => ?_) hwalk⟩
      · obtain ⟨j, hj⟩ := List.getElem?_of_mem hd
        have := hmax _ (List.mem_of_getElem? (hval j d hj).2)
        rwa [(hval j d hj).1, (hval i c hc).1] at this
      · have := hfirst j hj _ (hval j d hd).2
        rwa [(hval j d hd).1, (hval i c hc).1] at this

/-- The best child is found with the totals of the children alone. -/
theorem bestChild_congr {totals totals' : TotalWeights} {first : NodePtr} {others : List NodePtr}
    (h : ∀ c ∈ first :: others, totals' c.path = totals c.path) :
    bestChild totals' first others = bestChild totals first others := by
  induction others generalizing first with
  | nil => rfl
  | cons c others ih =>
    have hfirst := h first (by simp)
    have hc := h c (by simp)
    have hothers : ∀ d ∈ others, totals' d.path = totals d.path := fun d hd => h d (by simp [hd])
    unfold bestChild at ih ⊢
    rw [List.foldl_cons, List.foldl_cons, hfirst, hc]
    refine ih fun d hd => ?_
    rcases List.mem_cons.mp hd with rfl | hd
    · split_ifs
      · exact hc
      · exact hfirst
    · exact hothers d hd

/-- The walk to the tip looks at the totals of the nodes alone. -/
theorem tipLoop_congr {root : TxPoWTreeNode} {totals totals' : TotalWeights}
    (h : ∀ node : NodePtr, node.Of root → totals' node.path = totals node.path) (fuel : ℕ) :
    ∀ (node : NodePtr) (length : ℕ), node.Of root →
      tipLoop totals' fuel node length = tipLoop totals fuel node length := by
  induction fuel with
  | zero => exact fun _ _ _ => rfl
  | succ fuel ih =>
    intro node length hnode
    rw [tipLoop, tipLoop]
    split
    · rfl
    · rename_i first others hcs
      have hof : ∀ c ∈ first :: others, c.Of root := fun c hc => hnode.child (hcs ▸ hc)
      rw [bestChild_congr fun c hc => h c (hof c hc)]
      obtain ⟨i, hi, -⟩ := bestChild_spec totals first others
      exact ih _ _ (hof _ (List.mem_of_getElem? hi))

/-- **Two runs on one tree** give the same totals and the same tip, whatever the totals were before and
however `std::sort` orders equivalent elements. -/
theorem recalculateTree_agree {sort sort' : (NodePtr → NodePtr → Bool) → List NodePtr → List NodePtr}
    (hsort : StdSort sort) (hsort' : StdSort sort') {tree : TxPowTree} {old old' : TotalWeights}
    {r r' : Recalculated} (h : recalculateTree sort tree old = .ok r)
    (h' : recalculateTree sort' tree old' = .ok r') :
    r'.tip = r.tip ∧
      ∀ root ∈ tree.root, ∀ node : NodePtr, node.Of root → r'.totals node.path = r.totals node.path := by
  cases hroot : tree.root with
  | none =>
    simp only [recalculateTree, hroot] at h h'
    cases h
    cases h'
    exact ⟨rfl, by simp⟩
  | some root =>
    obtain ⟨htotals, htip⟩ := recalculateTree_totals hsort hroot h
    obtain ⟨htotals', htip'⟩ := recalculateTree_totals hsort' hroot h'
    have heq : ∀ node : NodePtr, node.Of root → r'.totals node.path = r.totals node.path := by
      intro node hnode
      have hboth := (htotals' node hnode).symm.trans (htotals node hnode)
      exact Except.ok.inj hboth
    refine ⟨?_, fun root' hroot' => ?_⟩
    · rw [htip, htip', tipLoop_congr heq _ _ _ (RoseTree.Ref.of_rootRef root)]
    · obtain rfl := Option.some.inj hroot'
      exact heq

/-! ## Two small trees -/

/-- A sort that keeps equivalent elements in their order. -/
def stableSort (before : NodePtr → NodePtr → Bool) (nodes : List NodePtr) : List NodePtr :=
  nodes.insertionSort fun a b => before b a = false

theorem stdSort_stableSort : StdSort stableSort := by
  have hiff : ∀ a b : NodePtr, comesBefore b a = false ↔
      a.tree.value.blockNumber.toRat ≤ b.tree.value.blockNumber.toRat := fun a b => by
    rw [comesBefore, decide_eq_false_iff_not, MiniNumber.compareTo_pos, not_lt]
  have htotal : Std.Total fun a b : NodePtr => comesBefore b a = false :=
    ⟨fun a b => by simpa only [hiff] using le_total _ _⟩
  have htrans : IsTrans NodePtr fun a b => comesBefore b a = false :=
    ⟨fun a b c => by simpa only [hiff] using le_trans⟩
  exact fun nodes => ⟨List.perm_insertionSort _ nodes, List.pairwise_insertionSort _ nodes⟩

/-- A block with an integral number and weight. -/
def sampleBlock (number weight : ℕ) (children : List TxPoWTreeNode)
    (h : (MiniNumber.ofInt weight).IsNonneg := by decide) : TxPoWTreeNode :=
  .node ⟨.ofInt number, .ofInt weight, h⟩ children

@[simp] theorem children_sampleBlock (n w : ℕ) (cs : List TxPoWTreeNode)
    (h : (MiniNumber.ofInt w).IsNonneg) : (sampleBlock n w cs h).children = cs := rfl

@[simp] theorem weight_sampleBlock (n w : ℕ) (cs : List TxPoWTreeNode)
    (h : (MiniNumber.ofInt w).IsNonneg) :
    TxPoWTreeNode.weight (sampleBlock n w cs h).value = w := by
  simp [TxPoWTreeNode.weight, sampleBlock]

/-- Two branches above the root: one block of weight 3, and three blocks of weights 1, 1 and 5. -/
def forkedRoot : TxPoWTreeNode :=
  sampleBlock 0 1 [sampleBlock 1 3 [], sampleBlock 1 1 [sampleBlock 2 1 [sampleBlock 3 5 []]]]

/-- Two blocks above the root. -/
def flatRoot : TxPoWTreeNode := sampleBlock 0 1 [sampleBlock 1 3 [], sampleBlock 1 4 []]

/-- The tree of a root whose numbers `isLess` sees going up. -/
def treeOf (root : TxPoWTreeNode)
    (h : ∀ parent ∈ root.refs, ∀ child ∈ parent.children,
      parent.tree.value.blockNumber.isLess child.tree.value.blockNumber = true := by decide) :
    TxPowTree where
  root := some root
  numbered := by
    intro t ht parent hparent child hchild
    obtain rfl := Option.some.inj ht
    rw [← MiniNumber.isLess_iff]
    exact h parent (RoseTree.mem_refs.mpr hparent) child hchild

def forkedTree : TxPowTree := treeOf forkedRoot

def flatTree : TxPowTree := treeOf flatRoot

theorem weighsTwoLevels_flatTree : WeighsTwoLevels flatTree := by
  have hroom : ∀ n : ℕ, (MiniNumber.ofInt n).IsNonneg → ∀ q : ℚ, q = n →
      ∃ x : MiniNumber, x.IsNonneg ∧ x.toRat = q := fun n hn q hq => ⟨_, hn, by simp [hq]⟩
  intro root hroot node hnode
  obtain rfl := Option.some.inj hroot
  have hmem : node ∈ flatRoot.refs := RoseTree.mem_refs.mpr hnode
  have hrefs : flatRoot.refs = [⟨[], flatRoot⟩, ⟨[0], sampleBlock 1 3 []⟩, ⟨[1], sampleBlock 1 4 []⟩] :=
    rfl
  rw [hrefs] at hmem
  simp only [List.mem_cons, List.not_mem_nil, or_false] at hmem
  obtain rfl | rfl | rfl := hmem
  · refine ⟨by simp [flatRoot, RoseTree.Ref.children], fun k => ?_⟩
    rcases k with _ | _ | k
    · exact hroom 1 (by decide) _ (by simp [flatRoot])
    · exact hroom 4 (by decide) _ (by norm_num [flatRoot])
    · exact hroom 8 (by decide) _ (by norm_num [flatRoot])
  · exact ⟨by simp [RoseTree.Ref.children], fun k => hroom 3 (by decide) _ (by simp)⟩
  · exact ⟨by simp [RoseTree.Ref.children], fun k => hroom 4 (by decide) _ (by simp)⟩

/-! ## When the tree is weighed right -/

/-- **The totals and the tip are what the GHOST rule says exactly when no block two or more levels
below another one weighs anything and every running sum has room in 64 digits.** The accumulation
goes through the nodes from the lowest block number up, so each node adds up the own weights of its
children and nothing of what is below them. -/
theorem recalculateTree_ghostTip_iff
    {sort : (NodePtr → NodePtr → Bool) → List NodePtr → List NodePtr} (hsort : StdSort sort)
    (tree : TxPowTree) (old : TotalWeights) {r : Recalculated}
    (h : recalculateTree sort tree old = .ok r) : GhostTip tree r ↔ WeighsTwoLevels tree := by
  cases hroot : tree.root with
  | none =>
    simp only [recalculateTree, hroot, Except.ok.injEq] at h
    subst h
    simp [GhostTip, WeighsTwoLevels, hroot]
  | some root =>
    obtain ⟨htotals, htip⟩ := recalculateTree_totals hsort hroot h
    simp only [GhostTip, WeighsTwoLevels, hroot, Option.mem_def, Option.some.injEq, forall_eq']
    have hw := TxPoWTreeNode.weight_nonneg
    -- each node by itself
    have hnode : ∀ node : NodePtr, node.Of root →
        ((r.totals node.path).toRat = node.tree.total TxPoWTreeNode.weight ↔
          (∀ c ∈ node.tree.children, ∀ d ∈ c.children, d.total TxPoWTreeNode.weight = 0) ∧
          ∀ k, ∃ x : MiniNumber, x.IsNonneg ∧ x.toRat = TxPoWTreeNode.weight node.tree.value +
            ((node.tree.children.take k).map fun c => TxPoWTreeNode.weight c.value).sum) := by
      intro node hof
      obtain ⟨-, hle, hiff⟩ := node.tree.value.weight_nonneg.foldlM_add
        (by simpa using fun c _ => c.value.weight_nonneg) (htotals node hof)
      simp only [← List.map_take, List.map_map] at hle hiff
      have htwo := RoseTree.total_eq_two_levels_iff hw node.tree
      have hge := RoseTree.two_levels_le_total hw node.tree
      constructor
      · intro heq
        exact ⟨htwo.mp (le_antisymm (heq ▸ hle) hge), hiff.mp (le_antisymm hle (heq ▸ hge))⟩
      · rintro ⟨h1, h2⟩
        exact (hiff.mpr h2).trans (htwo.mpr h1).symm
    constructor
    · rintro ⟨hall, -⟩ node hof
      obtain ⟨hbelow, hroom⟩ := (hnode node hof).mp (hall node hof)
      refine ⟨fun c hc d hd => ?_, hroom⟩
      have hzero := hbelow _ (RoseTree.Ref.tree_mem_children hc) _ (RoseTree.Ref.tree_mem_children hd)
      exact le_antisymm (hzero ▸ RoseTree.weight_le_total hw _) (hw _)
    · intro hcond
      have hall : ∀ node : NodePtr, node.Of root →
          (r.totals node.path).toRat = node.tree.total TxPoWTreeNode.weight := by
        intro node hof
        refine (hnode node hof).mpr ⟨fun c hc d hd => ?_, (hcond node hof).2⟩
        obtain ⟨c, hc', rfl⟩ := RoseTree.Ref.exists_child hc
        obtain ⟨d, hd', rfl⟩ := RoseTree.Ref.exists_child hd
        exact RoseTree.total_eq_zero_of_grandchildren (fun n hn => (hcond n hn).1) hof hc' hd'
      refine ⟨hall, _, htip, ?_⟩
      obtain ⟨hof, q, hq, hwalk⟩ := tipLoop_heaviest hall root.refs.length root.rootRef 0
        (RoseTree.Ref.of_rootRef root) le_rfl
      refine ⟨hof, ?_⟩
      rw [hq]
      exact hwalk

theorem recalculateTree_ghostTip_iff_flatTree :
    ∃ r, recalculateTree stableSort flatTree (fun _ => .zero) = .ok r ∧ GhostTip flatTree r := by
  have hrun : (recalculateTree stableSort flatTree fun _ => .zero).isOk = true := by decide +kernel
  cases h : recalculateTree stableSort flatTree fun _ => .zero with
  | error e =>
    rw [h] at hrun
    exact absurd hrun (by simp [Except.isOk, Except.toBool])
  | ok r =>
    exact ⟨r, rfl, (recalculateTree_ghostTip_iff stdSort_stableSort flatTree _ h).mpr
      weighsTwoLevels_flatTree⟩

/-- The longer branch weighs 7, but its first block gets the total 2: the tip is the block of
weight 3. -/
theorem recalculateTree_not_ghostTip :
    StdSort stableSort ∧ ∃ r, recalculateTree stableSort forkedTree (fun _ => .zero) = .ok r ∧
      ¬ GhostTip forkedTree r ∧
      ∀ tip ∈ r.tip, ¬ RoseTree.HeaviestPath TxPoWTreeNode.weight forkedRoot tip.path := by
  refine ⟨stdSort_stableSort, ?_⟩
  have hrun : (do
      let r ← recalculateTree stableSort forkedTree fun _ => .zero
      return (r.totals [1], r.tip.map (·.path)) : Result _) = .ok (⟨2, 0⟩, some [0]) := by
    decide +kernel
  obtain ⟨r, hr, hrun⟩ := Result.bind_eq_ok.mp hrun
  obtain ⟨htotal, htip⟩ := Prod.mk.inj (Result.pure_eq_ok.mp hrun)
  refine ⟨r, hr, fun hghost => ?_, fun tip hmem hwalk => ?_⟩
  · have h := hghost.1 ⟨[1], sampleBlock 1 1 [sampleBlock 2 1 [sampleBlock 3 5 []]]⟩ rfl
    rw [htotal] at h
    norm_num [RoseTree.total_eq, TxPoWTreeNode.weight, sampleBlock, MiniNumber.toRat,
      MiniNumber.ofInt, Decimal.value] at h
  · rw [Option.mem_def.mp hmem, Option.map_some, Option.some.injEq] at htip
    rw [htip] at hwalk
    cases hwalk with
    | step hc hmax hfirst hp =>
      obtain rfl := Option.some.inj hc
      have h := hmax (sampleBlock 1 1 [sampleBlock 2 1 [sampleBlock 3 5 []]]) (by simp [forkedRoot, sampleBlock])
      norm_num [RoseTree.total_eq, TxPoWTreeNode.weight, sampleBlock, MiniNumber.toRat,
        MiniNumber.ofInt, Decimal.value] at h

end TxPowTree

end Minima
