import Minima.Database.BlockTree
import Minima.Database.TxPoWTreeNode
import Minima.Database.TxPowTree
import Minima.Lib.TreeOrder
import Minima.Objects.RoundTrip

/-! # Saving the tree and reading it back

`writeDataStream` writes the nodes of the tree in the order of `traverseTree`, whose stack takes the
children of a node from the first to the last and gives them back from the last to the first.
`readDataStream` hangs every node under its parent, behind the children that are there already.

* **`TxPowTree.writeDataStream`**, **`TxPowTree.readDataStream`** — the streams of the tree.
* **`NodeTree`** — a tree of nodes as the processor builds it.
* **`readDataStream_writeDataStream`** — what is read back is the mirror image of the tree.
* **`restores_iff`** — so it is the same tree exactly when no node has two children. -/

namespace Minima

open RoseTree

/-! ## Nodes -/

namespace BlockNode

/-- `getTxPoW`. -/
def getTxPoW (n : BlockNode) : TxPoW := n.txBlock.txpow

/-- `getTxPoW().getTxPoWID()`. -/
def getTxPoWID (n : BlockNode) : Text := n.getTxPoW.getTxPoWID

/-- `getParentID().to0xString()`. -/
def getParentID (n : BlockNode) : Text := (n.getTxPoW.header.superParents ⟨0, by decide⟩).to0xString

/-- `calculateRelevantCoins`: the coins with one of the relevant entry numbers. -/
def calculateRelevantCoins (coins : List Coin) (relevant : List MMREntryNumber) : Result (List Coin) :=
  (coins.filter fun c => relevant.any fun e => c.mmrEntryNumber.isEqual e).mapM TxPoWTreeNode.deepCopied

/-- `writeDataStream`. The hash table of the MMR lists its entries in an order of its own. -/
def writeDataStream (listed : List MMREntry → List MMREntry) (n : BlockNode) : Result (List Byte) := do
  let txBlock ← n.txBlock.writeDataStream
  let mmr ← n.mmr.writeDataStream (listed n.mmr.setEntries)
  let coins ← Coin.writeAll Coin.writeDataStream n.coins
  return txBlock ++ mmr ++ (MiniNumber.ofInt n.coins.length).writeDataStream ++ coins ++
    (MiniNumber.ofInt n.relevantMMRCoins.length).writeDataStream ++
    (n.relevantMMRCoins.map MMREntryNumber.writeDataStream).flatten

/-- `readDataStream`. -/
def readDataStream (C : Crypto) (weightText : ℕ → Text) : Reader BlockNode := do
  let txBlock ← TxBlock.readDataStream C weightText
  let mmr ← MMR.readDataStream C
  let coinsLength ← MiniNumber.getAsInt <$> MiniNumber.readDataStream
  let coins ← Reader.readMany Coin.readDataStream coinsLength.toNat
  let relevantLength ← MiniNumber.getAsInt <$> MiniNumber.readDataStream
  let relevant ← Reader.readMany MMREntryNumber.readDataStream relevantLength.toNat
  let _ ← Reader.lift (calculateRelevantCoins coins relevant)
  return ⟨txBlock, mmr, coins, relevant⟩

/-- `clearParent`, and `setParent` in `addChildNode`: both ask the parameters for the MegaMMR. -/
def attach (isMega : Bool) (n : BlockNode) : BlockNode :=
  { n with mmr := { n.mmr with useMegaMMR := isMega } }

@[simp] theorem txBlock_attach (isMega : Bool) (n : BlockNode) : (n.attach isMega).txBlock = n.txBlock :=
  rfl

/-- What a node holds, with the hash table of its MMR as a set with repetitions. -/
structure Contents where
  txBlock : TxBlock
  mmr : MMR
  entries : Multiset MMREntry
  coins : List Coin
  relevantMMRCoins : List MMREntryNumber

/-- What the node holds, in whatever order. -/
def contents (n : BlockNode) : Contents :=
  ⟨n.txBlock, { n.mmr with setEntries := [] }, n.mmr.setEntries, n.coins, n.relevantMMRCoins⟩

/-! ## Which nodes make the round trip -/

/-- A node as the reader makes it, but for the MegaMMR. -/
structure Wire (C : Crypto) (weightText : ℕ → Text) (n : BlockNode) : Prop where
  txBlock : n.txBlock.Wire C weightText
  mmr : MMR.Wire C { n.mmr with useMegaMMR := false }
  coinsLength : n.coins.length < 2 ^ 31
  coins : ∀ c ∈ n.coins, c.Wire
  relevantLength : n.relevantMMRCoins.length < 2 ^ 31
  relevant : ∀ e ∈ n.relevantMMRCoins, e.Wire

/-- The blocks and the coins of the node are held. -/
structure Held (n : BlockNode) : Prop where
  txBlock : n.txBlock.Held
  coins : ∀ c ∈ n.coins, c.Held

theorem calculateRelevantCoins_of_held {coins : List Coin} (hwire : ∀ c ∈ coins, c.Wire)
    (hheld : ∀ c ∈ coins, c.Held) (relevant : List MMREntryNumber) :
    ∃ cs, calculateRelevantCoins coins relevant = .ok cs := by
  unfold calculateRelevantCoins
  have hcopy : ∀ c ∈ coins, ∃ copy, TxPoWTreeNode.deepCopied c = .ok copy := by
    intro c hc
    obtain ⟨bs, hbs, hread⟩ := Coin.transmits (hwire c hc) (hheld c hc)
    refine ⟨c, ?_⟩
    have h := hread []
    rw [List.append_nil] at h
    unfold TxPoWTreeNode.deepCopied Coin.deepCopy
    simp only [hbs, h]
  have hfilter : ∀ c ∈ coins.filter fun c => relevant.any fun e => c.mmrEntryNumber.isEqual e,
      ∃ copy, TxPoWTreeNode.deepCopied c = .ok copy := fun c hc => hcopy c (List.mem_filter.mp hc).1
  generalize (coins.filter fun c => relevant.any fun e => c.mmrEntryNumber.isEqual e) = cs at hfilter ⊢
  induction cs with
  | nil => exact ⟨[], rfl⟩
  | cons c cs ih =>
    obtain ⟨copy, hc⟩ := hfilter c List.mem_cons_self
    obtain ⟨rest, hrest⟩ := ih fun d hd => hfilter d (List.mem_cons_of_mem _ hd)
    refine ⟨copy :: rest, ?_⟩
    rw [List.mapM_cons, hc, Result.ok_bind, hrest]
    rfl

/-- A list behind its length, read without a reservation. -/
theorem many_transmits {α : Type} {write : α → Result (List Byte)} {read : Reader α}
    {xs : List α} (h : ∀ x ∈ xs, Transmits write read x x) :
    ∃ bytes, Crypto.concatAll (xs.map write) = .ok bytes ∧
      Reads (Reader.readMany read xs.length) bytes xs := by
  obtain ⟨bs, hbs, hread⟩ := Transmits.vector (Transmits.forall₂_self.mpr h)
  refine ⟨bs, hbs, ?_⟩
  rwa [Reader.readVector, if_neg (by omega), Int.toNat_natCast] at hread

/-- **A node that is held makes the round trip.** -/
theorem reads_of_held {C : Crypto} {weightText : ℕ → Text} {listed : List MMREntry → List MMREntry}
    (hlisted : ∀ es, (listed es).Perm es) {n : BlockNode} (h : n.Wire C weightText) (hheld : n.Held) :
    ∃ bytes n', n.writeDataStream listed = .ok bytes ∧ Reads (readDataStream C weightText) bytes n' ∧
      (n'.attach n.mmr.useMegaMMR).contents = n.contents := by
  obtain ⟨as, has, hreadBlock⟩ := TxBlock.transmits h.txBlock hheld.txBlock
  obtain ⟨bs, mmr, hbs, hreadMMR, hsame⟩ := MMR.transmits h.mmr (hlisted n.mmr.setEntries)
  obtain ⟨cs, hcs, hreadCoins⟩ := many_transmits fun c hc =>
    Coin.transmits (h.coins c hc) (hheld.coins c hc)
  have hreadRelevant := Reads.readMany fun e he => MMREntryNumber.reads (h.relevant e he)
  obtain ⟨copies, hcopies⟩ := calculateRelevantCoins_of_held h.coins hheld.coins n.relevantMMRCoins
  refine ⟨as ++ (bs ++ ((MiniNumber.ofInt n.coins.length).writeDataStream ++ (cs ++
    ((MiniNumber.ofInt n.relevantMMRCoins.length).writeDataStream ++
      (n.relevantMMRCoins.map MMREntryNumber.writeDataStream).flatten)))),
    ⟨n.txBlock, mmr, n.coins, n.relevantMMRCoins⟩, ?_, ?_, ?_⟩
  · have hbs' : n.mmr.writeDataStream (listed n.mmr.setEntries) = .ok bs := hbs
    rw [writeDataStream, has, hbs', Coin.writeAll, hcs]
    simp only [← List.append_assoc]
    rfl
  · refine hreadBlock.bind (hreadMMR.bind ((MiniNumber.reads_count h.coinsLength).bind ?_))
    rw [Int.toNat_natCast]
    refine hreadCoins.bind ((MiniNumber.reads_count h.relevantLength).bind ?_)
    rw [Int.toNat_natCast]
    have hlast := hreadRelevant.bind
      (f := fun relevant => Reader.lift (calculateRelevantCoins n.coins relevant) >>= fun _ =>
        pure (⟨n.txBlock, mmr, n.coins, relevant⟩ : BlockNode))
      (Reads.lift_bind hcopies (Reads.pure _))
    rwa [List.append_nil] at hlast
  · unfold contents attach
    rw [hsame.rest]
    exact congrArg (fun es => Contents.mk n.txBlock { n.mmr with setEntries := [] } es n.coins
      n.relevantMMRCoins) (Multiset.coe_eq_coe.mpr hsame.entries)

end BlockNode

namespace TxPowTree

variable (C : Crypto) (weightText : ℕ → Text) (listed : List MMREntry → List MMREntry) (isMega : Bool)

/-! ## Writing -/

/-- `mTotalNodes` after `recalculateTree`: the size of the fast links, which have one entry for each
id. -/
def totalNodes : Option (RoseTree BlockNode) → ℕ
  | none => 0
  | some t => (t.preorder.map BlockNode.getTxPoWID).dedup.length

/-- `WriteOutAction::runAction`. An exception is logged, and leaves what was written before it: `cut` of
the node. -/
def writeOut (cut : BlockNode → List Byte) (out : List Byte) (zNode : Ref BlockNode) :
    Result (List Byte) :=
  match zNode.tree.value.writeDataStream listed with
  | .ok bytes => .ok (out ++ bytes)
  | .error (.exception _) => .ok (out ++ cut zNode.tree.value)
  | .error (.undefined what) => undefinedBehaviour what

/-- `writeDataStream`. -/
def writeDataStream (cut : BlockNode → List Byte) (root : Option (RoseTree BlockNode)) :
    Result (List Byte) :=
  let out := (MiniNumber.ofInt (totalNodes root)).writeDataStream
  match root with
  | none => .ok out
  | some t => traverseTree (writeOut listed cut) t out

/-! ## Reading -/

/-- The nodes while they are read: the tree of `mRoot`, behind it the trees of nodes that found no
parent, and `mFastLink`, which finds a node by its id in one of the trees. -/
structure Loading where
  trees : List (RoseTree BlockNode)
  fastLink : Text → Option (ℕ × List ℕ)

namespace Loading

/-- Nothing read yet. -/
def empty : Loading := ⟨[], fun _ => none⟩

/-- How many children the node at a place has. -/
def childCount (s : Loading) (place : ℕ × List ℕ) : ℕ :=
  match (s.trees[place.1]?).bind fun t => t.subtree? place.2 with
  | some t => t.children.length
  | none => 0

/-- One node of the loop, once it is read. The fast link is set before the parent is looked up, so a
node with its own id for a parent finds itself; it is then in no tree, like a node whose parent is not
found. -/
def addNode (s : Loading) (n : BlockNode) : Loading :=
  let link := fun place => Function.update s.fastLink n.getTxPoWID (some place)
  match s.trees with
  | [] => ⟨[node (n.attach isMega) []], link (0, [])⟩
  | trees =>
    match if n.getParentID = n.getTxPoWID then none else s.fastLink n.getParentID with
    | some place => ⟨trees.modify place.1 fun t => t.addChild place.2 (n.attach isMega),
        link (place.1, place.2 ++ [s.childCount place])⟩
    | none => ⟨trees ++ [node n []], link (trees.length, [])⟩

end Loading

/-- A node of the stream. Its `TxPoW` is copied for the database of blocks, and a copy that fails is a
null pointer. -/
def readNode : Reader BlockNode := do
  let n ← BlockNode.readDataStream C weightText
  let copy := n.getTxPoW.writeDataStream >>= fun bytes => (TxPoW.readDataStream C weightText bytes).1
  match copy with
  | .ok _ => return n
  | .error _ => Reader.lift (undefinedBehaviour "null TxPoW")

/-- The loop of `readDataStream` over the nodes that are left, with the number of failures so far. A
node that throws is passed over, and the loop goes on where the stream is; after more than five
failures it stops. -/
def readNodes : ℕ → ℕ → Loading → Reader Loading
  | 0, _, s => pure s
  | n + 1, failed, s => fun stream =>
    match readNode C weightText stream with
    | (.ok zNode, rest) =>
      if zNode.getTxPoWID.isEmpty then readNodes n (failed + 1) s rest
      else readNodes n failed (s.addNode isMega zNode) rest
    | (.error (.exception _), rest) =>
      if 5 < failed + 1 then (.ok s, rest) else readNodes n (failed + 1) s rest
    | (.error (.undefined what), rest) => (undefinedBehaviour what, rest)

/-- `readDataStream`: the tree of the first node. -/
def readDataStream : Reader (Option (RoseTree BlockNode)) := do
  let len ← MiniNumber.getAsInt <$> MiniNumber.readDataStream
  let s ← readNodes C weightText isMega len.toNat 0 Loading.empty
  return s.trees.head?

/-! ## The order of the stream -/

/-- **The stack of `traverseTree` lists the mirror image.** -/
theorem traverseLoop_mirror {σ α : Type} {action : σ → Ref α → Result σ} {f : σ → α → Result σ}
    (h : ∀ s r, action s r = f s r.tree.value) (fuel : ℕ) :
    ∀ (stack : List (Ref α)) (s : σ), (stack.flatMap fun r => r.tree.preorder).length ≤ fuel →
      traverseLoop action fuel stack s =
        (stack.flatMap fun r => r.tree.mirror.preorder).foldlM f s := by
  induction fuel with
  | zero =>
    intro stack s hfuel
    cases stack with
    | nil => rfl
    | cons r stack =>
      obtain ⟨path, ⟨a, cs⟩⟩ := r
      rw [List.flatMap_cons, preorder_node] at hfuel
      exact absurd hfuel (by simp)
  | succ fuel ih =>
    intro stack s hfuel
    cases stack with
    | nil => rfl
    | cons r stack =>
      obtain ⟨path, ⟨a, cs⟩⟩ := r
      have hchildren : ∀ g : RoseTree α → List α,
          ((Ref.mk path (RoseTree.node a cs)).children.reverse ++ stack).flatMap (fun r => g r.tree) =
            cs.reverse.flatMap g ++ stack.flatMap fun r => g r.tree := by
        intro g
        have hmap : (Ref.mk path (RoseTree.node a cs)).children.map (fun r => r.tree) = cs :=
          (Ref.map_children _ fun t => t).trans (List.map_id _)
        rw [List.flatMap_append, ← List.flatMap_map (fun r : Ref α => r.tree) g, List.map_reverse, hmap]
      have hlist : (((⟨path, .node a cs⟩ : Ref α) :: stack).flatMap fun r => r.tree.mirror.preorder) =
          a :: (cs.reverse.flatMap fun c => c.mirror.preorder) ++
            stack.flatMap fun r => r.tree.mirror.preorder := by
        rw [List.flatMap_cons, mirror_node, preorder_node, ← List.map_reverse, List.flatMap_map]
      have hlen : (((Ref.mk path (RoseTree.node a cs)).children.reverse ++ stack).flatMap
          fun r => r.tree.preorder).length ≤ fuel := by
        rw [List.flatMap_cons, preorder_node, List.cons_append, List.length_cons] at hfuel
        rw [hchildren preorder]
        rw [List.length_append] at hfuel ⊢
        have hperm := (List.reverse_perm cs).flatMap_right preorder
        rw [hperm.length_eq]
        omega
      rw [traverseLoop, foldl_push, h, hlist, List.cons_append, List.foldlM_cons]
      congr 1
      funext s'
      rw [ih _ _ hlen, hchildren fun t => t.mirror.preorder]

theorem traverseTree_mirror {σ α : Type} {action : σ → Ref α → Result σ} {f : σ → α → Result σ}
    (h : ∀ s r, action s r = f s r.tree.value) (root : RoseTree α) (s : σ) :
    traverseTree action root s = root.mirror.preorder.foldlM f s := by
  have hlen : ([root.rootRef].flatMap fun r => r.tree.preorder).length ≤ root.refs.length := by
    rw [List.flatMap_singleton, ← map_value_refs, List.length_map]
    exact le_rfl
  rw [traverseTree, traverseLoop_mirror h _ _ _ hlen, List.flatMap_singleton]
  rfl

/-! ## Linking the nodes again -/

namespace Loading

/-- A node whose parent has been read is hung under it. -/
theorem addNode_child {t s : RoseTree BlockNode} {p : List ℕ} {fastLink : Text → Option (ℕ × List ℕ)}
    {n : BlockNode} (hs : t.subtree? p = some s) (hlink : fastLink n.getParentID = some (0, p))
    (hne : n.getParentID ≠ n.getTxPoWID) :
    addNode isMega ⟨[t], fastLink⟩ n = ⟨[t.graft p (node (n.attach isMega) [])],
      Function.update fastLink n.getTxPoWID (some (0, p ++ [s.children.length]))⟩ := by
  have hcount : childCount ⟨[t], fastLink⟩ (0, p) = s.children.length := by
    unfold childCount
    simp only [List.getElem?_cons_zero, Option.bind_some, hs]
  unfold addNode
  simp only [if_neg hne, hlink, hcount, addChild_eq]
  rfl

/-- The nodes of a tree, once their parent has been read, and nothing but their own links changes. -/
def Relinks (c : RoseTree BlockNode) : Prop :=
  ∀ (t s : RoseTree BlockNode) (p : List ℕ) (fastLink : Text → Option (ℕ × List ℕ)),
    t.subtree? p = some s → fastLink c.value.getParentID = some (0, p) →
    c.value.getParentID ∉ c.preorder.map BlockNode.getTxPoWID →
    ∃ fastLink', c.preorder.foldl (addNode isMega) ⟨[t], fastLink⟩ =
        ⟨[t.graft p (c.map (BlockNode.attach isMega))], fastLink'⟩ ∧
      ∀ id ∉ c.preorder.map BlockNode.getTxPoWID, fastLink' id = fastLink id

/-- **The children of a node, one after the other**, when each of them is linked again. -/
theorem relinks_children {cs : List (RoseTree BlockNode)} {id : Text}
    (hcs : ∀ c ∈ cs, Relinks isMega c) (hparent : ∀ c ∈ cs, c.value.getParentID = id)
    (hnodup : (id :: (cs.flatMap preorder).map BlockNode.getTxPoWID).Nodup) :
    ∀ (t s : RoseTree BlockNode) (p : List ℕ) (fastLink : Text → Option (ℕ × List ℕ)),
      t.subtree? p = some s → fastLink id = some (0, p) →
      ∃ fastLink', (cs.flatMap preorder).foldl (addNode isMega) ⟨[t], fastLink⟩ =
          ⟨[(cs.map (RoseTree.map (BlockNode.attach isMega))).foldl (fun t c => t.graft p c) t],
            fastLink'⟩ ∧
        ∀ k ∉ (cs.flatMap preorder).map BlockNode.getTxPoWID, fastLink' k = fastLink k := by
  induction cs with
  | nil => exact fun t s p fastLink _ _ => ⟨fastLink, rfl, fun _ _ => rfl⟩
  | cons c cs ih =>
    intro t s p fastLink hs hlink
    rw [List.flatMap_cons, List.map_append, List.nodup_cons, List.mem_append, not_or] at hnodup
    obtain ⟨⟨hfresh, hfresh'⟩, hnodup⟩ := hnodup
    have hid := hparent c List.mem_cons_self
    obtain ⟨mid, hmid, hframe⟩ := hcs c List.mem_cons_self t s p fastLink hs (hid ▸ hlink)
      (hid ▸ hfresh)
    obtain ⟨fastLink', hfold, hframe'⟩ := ih (fun d hd => hcs d (List.mem_cons_of_mem _ hd))
      (fun d hd => hparent d (List.mem_cons_of_mem _ hd))
      (List.nodup_cons.mpr ⟨hfresh', hnodup.of_append_right⟩) _ _ p mid
      (subtree?_graft hs (c.map (BlockNode.attach isMega))) ((hframe id hfresh).trans hlink)
    refine ⟨fastLink', ?_, fun k hk => ?_⟩
    · rw [List.flatMap_cons, List.foldl_append, hmid, hfold]
      rfl
    · rw [List.flatMap_cons, List.map_append, List.mem_append, not_or] at hk
      rw [hframe' k hk.2, hframe k hk.1]

/-- **A linked tree with distinct ids is linked again.** -/
theorem relinks {c : RoseTree BlockNode}
    (hlinked : c.Linked fun parent child => child.getParentID = parent.getTxPoWID)
    (hnodup : (c.preorder.map BlockNode.getTxPoWID).Nodup) : Relinks isMega c := by
  induction c using induct with
  | h a cs ih =>
    rw [linked_node] at hlinked
    rw [preorder_node, List.map_cons] at hnodup
    have hcs : ∀ c ∈ cs, Relinks isMega c := by
      intro c hc
      refine ih c hc (hlinked c hc).2 ((List.nodup_cons.mp hnodup).2.sublist ?_)
      exact (sublist_preorder hc).map _
    intro t s p fastLink hs hlink hfresh
    rw [value_node] at hlink
    rw [value_node, preorder_node, List.map_cons, List.mem_cons, not_or] at hfresh
    obtain ⟨fastLink', hfold, hframe⟩ := relinks_children isMega hcs (fun c hc => (hlinked c hc).1) hnodup
      (t.graft p (node (a.attach isMega) [])) _ (p ++ [s.children.length])
      (Function.update fastLink a.getTxPoWID (some (0, p ++ [s.children.length])))
      (subtree?_graft_concat hs _) (Function.update_self _ _ _)
    refine ⟨fastLink', ?_, fun k hk => ?_⟩
    · rw [preorder_node, List.foldl_cons, addNode_child isMega hs hlink hfresh.1, hfold,
        foldl_graft_concat hs, List.nil_append, map_node]
    · rw [preorder_node, List.map_cons, List.mem_cons, not_or] at hk
      rw [hframe k hk.2, Function.update_of_ne hk.1]

/-- **The nodes of a linked tree with distinct ids, read in preorder, make the tree.** -/
theorem trees_foldl_addNode {t : RoseTree BlockNode}
    (hlinked : t.Linked fun parent child => child.getParentID = parent.getTxPoWID)
    (hnodup : (t.preorder.map BlockNode.getTxPoWID).Nodup) :
    (t.preorder.foldl (addNode isMega) empty).trees = [t.map (BlockNode.attach isMega)] := by
  cases t with
  | node a cs =>
    rw [linked_node] at hlinked
    rw [preorder_node, List.map_cons] at hnodup
    have hcs : ∀ c ∈ cs, Relinks isMega c := by
      intro c hc
      refine relinks isMega (hlinked c hc).2 ((List.nodup_cons.mp hnodup).2.sublist ?_)
      exact (sublist_preorder hc).map _
    obtain ⟨fastLink', hfold, -⟩ := relinks_children isMega hcs (fun c hc => (hlinked c hc).1) hnodup
      (node (a.attach isMega) []) _ [] (Function.update (fun _ => none) a.getTxPoWID (some (0, [])))
      rfl (Function.update_self _ _ _)
    have hroot : addNode isMega empty a = ⟨[node (a.attach isMega) []],
        Function.update (fun _ => none) a.getTxPoWID (some (0, []))⟩ := rfl
    rw [preorder_node, List.foldl_cons, hroot, hfold, foldl_graft_nil, List.nil_append, map_node]

end Loading

/-! ## The stream of the nodes -/

section Stream

variable {C weightText listed isMega}

/-- **A node makes the round trip**: it is written, and reads back with the same contents, and so does
its `TxPoW`. -/
structure Stored (C : Crypto) (weightText : ℕ → Text) (listed : List MMREntry → List MMREntry)
    (isMega : Bool) (n : BlockNode) : Prop where
  node : ∃ bytes n', n.writeDataStream listed = .ok bytes ∧
    Reads (BlockNode.readDataStream C weightText) bytes n' ∧
    (n'.attach isMega).contents = n.contents
  txpow : Transmits TxPoW.writeDataStream (TxPoW.readDataStream C weightText) n.getTxPoW n.getTxPoW

theorem stored_of_held (hlisted : ∀ es, (listed es).Perm es) {n : BlockNode}
    (h : n.Wire C weightText) (hheld : n.Held) (hattached : n.mmr.useMegaMMR = isMega) :
    Stored C weightText listed isMega n :=
  ⟨hattached ▸ BlockNode.reads_of_held hlisted h hheld,
    TxPoW.transmits h.txBlock.txpow hheld.txBlock.txpow⟩

theorem reads_readNode {n : BlockNode} {bytes : List Byte}
    (hread : Reads (BlockNode.readDataStream C weightText) bytes n)
    (htxpow : Transmits TxPoW.writeDataStream (TxPoW.readDataStream C weightText) n.getTxPoW n.getTxPoW) :
    Reads (readNode C weightText) bytes n := by
  obtain ⟨bs, hbs, hreads⟩ := htxpow
  have hcopy : (n.getTxPoW.writeDataStream >>= fun bytes => (TxPoW.readDataStream C weightText bytes).1) =
      .ok n.getTxPoW := by
    have h := hreads []
    rw [List.append_nil] at h
    rw [hbs, Result.ok_bind, h]
  let settle : BlockNode → Reader BlockNode := fun n =>
    match (n.getTxPoW.writeDataStream >>= fun bytes => (TxPoW.readDataStream C weightText bytes).1) with
    | .ok _ => pure n
    | .error _ => Reader.lift (undefinedBehaviour "null TxPoW")
  have hsettle : Reads (settle n) [] n := by
    simp only [settle, hcopy]
    exact Reads.pure n
  have hlast := hread.bind hsettle
  rwa [List.append_nil] at hlast

/-- The loop over nodes that all read. -/
theorem reads_readNodes (failed : ℕ) (ns : List (List Byte × BlockNode))
    (h : ∀ n ∈ ns, Reads (readNode C weightText) n.1 n.2) (hnamed : ∀ n ∈ ns, n.2.getTxPoWID ≠ []) :
    ∀ s : Loading, Reads (readNodes C weightText isMega ns.length failed s) (ns.map Prod.fst).flatten
      ((ns.map Prod.snd).foldl (Loading.addNode isMega) s) := by
  induction ns with
  | nil => exact fun s => Reads.pure s
  | cons n ns ih =>
    intro s rest
    have hn := h n List.mem_cons_self ((ns.map Prod.fst).flatten ++ rest)
    have hns := ih (fun m hm => h m (List.mem_cons_of_mem _ hm))
      (fun m hm => hnamed m (List.mem_cons_of_mem _ hm)) (s.addNode isMega n.2) rest
    have hid := List.isEmpty_eq_false_iff.mpr (hnamed n List.mem_cons_self)
    simp only [List.map_cons, List.flatten_cons, List.append_assoc, List.length_cons, readNodes, hn,
      hid, Bool.false_eq_true, if_false]
    exact hns

theorem foldlM_writeOut {cut : BlockNode → List Byte} {bytes : BlockNode → List Byte}
    (ns : List BlockNode) (h : ∀ n ∈ ns, n.writeDataStream listed = .ok (bytes n)) (out : List Byte) :
    ns.foldlM (fun out n => writeOut listed cut out ⟨[], node n []⟩) out =
      .ok (out ++ (ns.map bytes).flatten) := by
  induction ns generalizing out with
  | nil => simp [pure, Except.pure]
  | cons n ns ih =>
    have hn : writeOut listed cut out ⟨[], node n []⟩ = .ok (out ++ bytes n) := by
      unfold writeOut
      simp only [value_node, h n List.mem_cons_self]
    rw [List.foldlM_cons, hn, Result.ok_bind, ih (fun m hm => h m (List.mem_cons_of_mem _ hm)),
      List.map_cons, List.flatten_cons, List.append_assoc]

end Stream

/-! ## Trees as the processor builds them -/

/-- **The tree with its nodes.** The blocks of the nodes form a `BlockTree`, their ids are hashes, the MMR
of every node was attached, and the number of nodes is an `int`. -/
structure NodeTree (isMega : Bool) where
  root : Option (RoseTree BlockNode)
  blocks : BlockTree
  blocks_eq : blocks.root = root.map (RoseTree.map BlockNode.getTxPoW)
  named : ∀ t ∈ root, ∀ n ∈ t.preorder, n.getTxPoWID ≠ []
  attached : ∀ t ∈ root, ∀ n ∈ t.preorder, n.mmr.useMegaMMR = isMega
  counted : ∀ t ∈ root, t.preorder.length < 2 ^ 31

namespace NodeTree

variable {isMega : Bool} {tree : NodeTree isMega} {t : RoseTree BlockNode}

theorem blocks_root (h : tree.root = some t) : tree.blocks.root = some (t.map BlockNode.getTxPoW) := by
  rw [tree.blocks_eq, h]
  rfl

/-- Parent ids lead to parents. -/
theorem linked (h : tree.root = some t) :
    t.Linked fun parent child => child.getParentID = parent.getTxPoWID := by
  have hblocks : (t.map BlockNode.getTxPoW).Linked fun parent child =>
      child.getParentID = .ok parent.txPoWID := by
    intro p s hs c hc
    obtain ⟨i, hi⟩ := List.getElem?_of_mem hc
    exact tree.blocks.linked _ (blocks_root h) ⟨p, s⟩ (mem_refs.mpr hs) ⟨p ++ [i], c⟩
      (Ref.mem_children.mpr ⟨i, rfl, hi⟩)
  intro p s hs c hc
  have hpair : Except.ok (c.value.getTxPoW.header.superParents ⟨0, by decide⟩) =
      (Except.ok s.value.getTxPoW.txPoWID : Result MiniData) := linked_map.mp hblocks p s hs c hc
  exact congrArg MiniData.to0xString (Except.ok.inj hpair)

/-- No id is there twice. -/
theorem nodup (h : tree.root = some t) : (t.preorder.map BlockNode.getTxPoWID).Nodup := by
  have hids : ((t.map BlockNode.getTxPoW).refs.map fun r => r.getTxPoW.getTxPoWID).Nodup := by
    refine List.Nodup.map_on (fun a ha b hb hab => ?_) (nodup_refs _)
    exact tree.blocks.distinct _ (blocks_root h) a ha b hb (MiniData.to0xString_injective hab)
  have hlist : (t.map BlockNode.getTxPoW).refs.map (fun r => r.getTxPoW.getTxPoWID) =
      t.preorder.map BlockNode.getTxPoWID := by
    have hvalues := congrArg (List.map TxPoW.getTxPoWID) (map_value_refs (t.map BlockNode.getTxPoW))
    rw [List.map_map, preorder_map, List.map_map] at hvalues
    exact hvalues
  rwa [hlist] at hids

theorem totalNodes_eq (h : tree.root = some t) : totalNodes tree.root = t.preorder.length := by
  rw [h, totalNodes, (nodup h).dedup, List.length_map]

end NodeTree

section Reload

variable {C : Crypto} {weightText : ℕ → Text} {listed : List MMREntry → List MMREntry} {isMega : Bool}
  (cut : BlockNode → List Byte)

/-- **What is read back is the mirror image of the tree.** -/
theorem readDataStream_writeDataStream {tree : NodeTree isMega} {t : RoseTree BlockNode}
    (ht : tree.root = some t) (hstored : ∀ n ∈ t.preorder, Stored C weightText listed isMega n) :
    ∃ bytes t', writeDataStream listed cut tree.root = .ok bytes ∧
      Reads (readDataStream C weightText isMega) bytes (some t') ∧
      t'.map BlockNode.contents = (t.map BlockNode.contents).mirror := by
  -- the bytes of every node, and the node that they read back as
  have harrive : ∀ n, ∃ bs n', n'.txBlock = n.txBlock ∧ (n ∈ t.preorder →
      n.writeDataStream listed = .ok bs ∧ Reads (readNode C weightText) bs n' ∧
        (n'.attach isMega).contents = n.contents) := by
    intro n
    by_cases hn : n ∈ t.preorder
    · obtain ⟨⟨bs, n', hwrite, hread, hsame⟩, htxpow⟩ := hstored n hn
      have hblock : n'.txBlock = n.txBlock := congrArg BlockNode.Contents.txBlock hsame
      have htxpow' : n'.getTxPoW = n.getTxPoW := congrArg TxBlock.txpow hblock
      exact ⟨bs, n', hblock, fun _ => ⟨hwrite, reads_readNode hread (htxpow' ▸ htxpow), hsame⟩⟩
    · exact ⟨[], n, rfl, fun h => absurd h hn⟩
  choose bytes arrive hblock harrive using harrive
  have hmem : ∀ n, n ∈ t.mirror.preorder ↔ n ∈ t.preorder := fun n => (preorder_mirror_perm t).mem_iff
  -- writing
  have hwrite : writeDataStream listed cut tree.root =
      .ok ((MiniNumber.ofInt (totalNodes tree.root)).writeDataStream ++
        (t.mirror.preorder.map bytes).flatten) := by
    unfold writeDataStream
    simp only [ht]
    have hvalue : ∀ out (r : Ref BlockNode), writeOut listed cut out r =
        writeOut listed cut out ⟨[], node r.tree.value []⟩ := fun _ _ => rfl
    rw [traverseTree_mirror (f := fun out n => writeOut listed cut out ⟨[], node n []⟩) hvalue]
    exact foldlM_writeOut _ (fun n hn => (harrive n ((hmem n).mp hn)).1) _
  -- reading
  let ns := t.mirror.preorder.map fun n => (bytes n, arrive n)
  have hfst : (ns.map Prod.fst) = t.mirror.preorder.map bytes := by rw [List.map_map]; rfl
  have hsnd : (ns.map Prod.snd) = (t.mirror.map arrive).preorder := by
    rw [preorder_map, List.map_map]
    rfl
  have hid : ∀ n, (arrive n).getTxPoWID = n.getTxPoWID := fun n =>
    congrArg (fun b : TxBlock => b.txpow.getTxPoWID) (hblock n)
  have hreads := @reads_readNodes C weightText isMega 0 ns (fun n hn => by
    obtain ⟨m, hm, rfl⟩ := List.mem_map.mp hn
    exact (harrive m ((hmem m).mp hm)).2.1) (fun n hn => by
    obtain ⟨m, hm, rfl⟩ := List.mem_map.mp hn
    rw [hid m]
    exact tree.named t ht m ((hmem m).mp hm)) Loading.empty
  have hlen : ns.length = totalNodes tree.root := by
    rw [NodeTree.totalNodes_eq ht, List.length_map, (preorder_mirror_perm t).length_eq]
  have hparent : ∀ n, (arrive n).getParentID = n.getParentID := fun n =>
    congrArg (fun b : TxBlock => (b.txpow.header.superParents ⟨0, by decide⟩).to0xString) (hblock n)
  have hlinked : (t.mirror.map arrive).Linked fun parent child =>
      child.getParentID = parent.getTxPoWID := by
    rw [linked_map]
    simp only [hid, hparent]
    exact (NodeTree.linked ht).mirror
  have hnodup : ((t.mirror.map arrive).preorder.map BlockNode.getTxPoWID).Nodup := by
    rw [preorder_map, List.map_map, show BlockNode.getTxPoWID ∘ arrive = BlockNode.getTxPoWID from
      funext hid]
    exact ((preorder_mirror_perm t).map _).nodup_iff.mpr (NodeTree.nodup ht)
  have htrees := Loading.trees_foldl_addNode isMega hlinked hnodup
  refine ⟨_, (t.mirror.map arrive).map (BlockNode.attach isMega), hwrite, ?_, ?_⟩
  · refine (MiniNumber.reads_count ?_).bind ?_
    · rw [NodeTree.totalNodes_eq ht]
      exact tree.counted t ht
    · rw [Int.toNat_natCast, ← hlen, ← hfst]
      have hlast := hreads.then_pure (f := fun s => s.trees.head?)
      rwa [hsnd, htrees] at hlast
  · rw [map_map, map_map, ← map_mirror]
    refine map_congr fun n hn => ?_
    exact (harrive n ((hmem n).mp hn)).2.2

end Reload

/-! ## When the tree is restored -/

/-- What `recalculateTree` reads of a block; `weigh` is `MiniNumber(getWeight())`. -/
def treeBlock (weigh : TxPoW → {w : MiniNumber // w.IsNonneg}) (t : TxPoW) : TreeBlock :=
  ⟨t.getBlockNumber, (weigh t).1, (weigh t).2⟩

/-- The tree as `recalculateTree` sees it. -/
def NodeTree.weighed {isMega : Bool} (weigh : TxPoW → {w : MiniNumber // w.IsNonneg})
    (tree : NodeTree isMega) : TxPowTree where
  root := tree.root.map (RoseTree.map fun n => treeBlock weigh n.getTxPoW)
  numbered := by
    intro t ht parent hparent child hchild
    obtain ⟨t0, ht0, rfl⟩ := Option.map_eq_some_iff.mp ht
    rw [← map_map (treeBlock weigh)] at hparent
    rw [Ref.Of, subtree?_map, Option.map_eq_some_iff] at hparent
    obtain ⟨s, hs, hparent⟩ := hparent
    obtain ⟨i, -, hi⟩ := Ref.mem_children.mp hchild
    rw [← hparent, children_map, List.getElem?_map, Option.map_eq_some_iff] at hi
    obtain ⟨c, hc, hchild⟩ := hi
    rw [← hparent, ← hchild, value_map, value_map]
    exact tree.blocks.numbered _ (NodeTree.blocks_root ht0) ⟨parent.path, s⟩ (mem_refs.mpr hs)
      ⟨parent.path ++ [i], c⟩ (Ref.mem_children.mpr ⟨i, rfl, hc⟩)

/-- **The same tree**: the same nodes with the same children in the same order, as many of them, and
after `recalculateTree` the same total weights and the same tip. -/
structure SameTree {isMega : Bool} (tree tree' : NodeTree isMega) : Prop where
  nodes : tree'.root.map (RoseTree.map BlockNode.contents) = tree.root.map (RoseTree.map BlockNode.contents)
  count : totalNodes tree'.root = totalNodes tree.root
  recalculated : ∀ weigh sort sort', StdSort sort → StdSort sort' → ∀ old old' r r',
    recalculateTree sort (tree.weighed weigh) old = .ok r →
    recalculateTree sort' (tree'.weighed weigh) old' = .ok r' →
    r'.tip = r.tip ∧ ∀ root ∈ (tree.weighed weigh).root, ∀ node : NodePtr, node.Of root →
      r'.totals node.path = r.totals node.path

/-- **The tree is restored**: it is written, and the same tree is read back. -/
def Restores (C : Crypto) (weightText : ℕ → Text) (listed : List MMREntry → List MMREntry)
    (cut : BlockNode → List Byte) {isMega : Bool} (tree : NodeTree isMega) : Prop :=
  ∃ bytes, writeDataStream listed cut tree.root = .ok bytes ∧
    ∃ tree' : NodeTree isMega, Reads (readDataStream C weightText isMega) bytes tree'.root ∧
      SameTree tree tree'

section Restore

variable {C : Crypto} {weightText : ℕ → Text} {listed : List MMREntry → List MMREntry} {isMega : Bool}
  {cut : BlockNode → List Byte}

/-- Whatever is read of a node's block is the same for nodes with the same contents. -/
theorem map_getTxPoW_of_contents {β : Type} {t t' : RoseTree BlockNode} (f : TxPoW → β)
    (h : t'.map BlockNode.contents = t.map BlockNode.contents) :
    t'.map (fun n => f n.getTxPoW) = t.map fun n => f n.getTxPoW := by
  have hmap := congrArg (RoseTree.map fun c : BlockNode.Contents => f c.txBlock.txpow) h
  rwa [map_map, map_map] at hmap

/-- A tree with the same contents is the same tree. -/
theorem exists_sameTree {tree : NodeTree isMega} {t t' : RoseTree BlockNode} (ht : tree.root = some t)
    (h : t'.map BlockNode.contents = t.map BlockNode.contents) :
    ∃ tree' : NodeTree isMega, tree'.root = some t' ∧ SameTree tree tree' := by
  have hids : t'.preorder.map BlockNode.getTxPoWID = t.preorder.map BlockNode.getTxPoWID := by
    have hmap := congrArg preorder (map_getTxPoW_of_contents TxPoW.getTxPoWID h)
    rwa [preorder_map, preorder_map] at hmap
  have hpre : t'.preorder.map BlockNode.contents = t.preorder.map BlockNode.contents := by
    have hmap := congrArg preorder h
    rwa [preorder_map, preorder_map] at hmap
  -- every node of the new tree has the contents of a node of the old one
  have hmem : ∀ n' ∈ t'.preorder, ∃ n ∈ t.preorder, n.contents = n'.contents := by
    intro n' hn'
    have hin := List.mem_map_of_mem (f := BlockNode.contents) hn'
    rw [hpre] at hin
    exact List.mem_map.mp hin
  let tree' : NodeTree isMega :=
    { root := some t'
      blocks := tree.blocks
      blocks_eq := by
        rw [NodeTree.blocks_root ht]
        exact congrArg some (map_getTxPoW_of_contents id h).symm
      named := by
        rintro _ ⟨⟩ n' hn'
        obtain ⟨n, hn, hsame⟩ := hmem n' hn'
        rw [show n'.getTxPoWID = n.getTxPoWID from
          (congrArg (fun c : BlockNode.Contents => c.txBlock.txpow.getTxPoWID) hsame).symm]
        exact tree.named t ht n hn
      attached := by
        rintro _ ⟨⟩ n' hn'
        obtain ⟨n, hn, hsame⟩ := hmem n' hn'
        rw [show n'.mmr.useMegaMMR = n.mmr.useMegaMMR from
          (congrArg (fun c : BlockNode.Contents => c.mmr.useMegaMMR) hsame).symm]
        exact tree.attached t ht n hn
      counted := by
        rintro _ ⟨⟩
        have hlen := congrArg List.length hpre
        rw [List.length_map, List.length_map] at hlen
        rw [hlen]
        exact tree.counted t ht }
  refine ⟨tree', rfl, ?_, ?_, ?_⟩
  · rw [ht]
    exact congrArg some h
  · rw [NodeTree.totalNodes_eq ht, NodeTree.totalNodes_eq (show tree'.root = some t' from rfl)]
    have hlen := congrArg List.length hpre
    rwa [List.length_map, List.length_map] at hlen
  · intro weigh sort sort' hsort hsort' old old' r r' hr hr'
    have hroot : (tree'.weighed weigh).root = (tree.weighed weigh).root := by
      show some (t'.map fun n => treeBlock weigh n.getTxPoW) = tree.root.map _
      rw [ht, map_getTxPoW_of_contents (treeBlock weigh) h]
      rfl
    have heq : tree'.weighed weigh = tree.weighed weigh := by
      cases hw : tree.weighed weigh
      cases hw' : tree'.weighed weigh
      rw [hw, hw'] at hroot
      congr
    rw [heq] at hr'
    exact recalculateTree_agree hsort hsort' hr hr'

theorem nodup_contents {tree : NodeTree isMega} {t : RoseTree BlockNode} (ht : tree.root = some t) :
    (t.map BlockNode.contents).preorder.Nodup := by
  have hids := NodeTree.nodup ht
  rw [show BlockNode.getTxPoWID =
    (fun c : BlockNode.Contents => c.txBlock.txpow.getTxPoWID) ∘ BlockNode.contents from rfl,
    ← List.map_map] at hids
  rw [preorder_map]
  exact hids.of_map _

/-- **A tree that is restored** has no node with two children. -/
theorem unbranched_of_restores {tree : NodeTree isMega} {t : RoseTree BlockNode} (ht : tree.root = some t)
    (hstored : ∀ n ∈ t.preorder, Stored C weightText listed isMega n)
    (h : Restores C weightText listed cut tree) : t.Unbranched := by
  obtain ⟨bytes, t', hwrite, hread, hmirror⟩ := readDataStream_writeDataStream cut ht hstored
  obtain ⟨bytes', hwrite', tree', hread', hsame⟩ := h
  rw [hwrite, Except.ok.injEq] at hwrite'
  subst hwrite'
  have hroot : tree'.root = some t' := by
    have hboth := (hread' []).symm.trans (hread [])
    simpa using hboth
  have hnodes := hsame.nodes
  rw [hroot, ht] at hnodes
  rw [← unbranched_map, ← mirror_eq_self_iff (nodup_contents ht), ← hmirror]
  exact Option.some.inj hnodes

/-- **The tree is restored exactly when no node has two children**, when its nodes make the round trip. -/
theorem restores_iff (tree : NodeTree isMega)
    (hstored : ∀ t ∈ tree.root, ∀ n ∈ t.preorder, Stored C weightText listed isMega n) :
    Restores C weightText listed cut tree ↔ ∀ t ∈ tree.root, t.Unbranched := by
  constructor
  · exact fun h t ht => unbranched_of_restores ht (hstored t ht) h
  intro hline
  cases ht : tree.root with
  | none =>
    refine ⟨(MiniNumber.ofInt 0).writeDataStream, ?_, tree, ?_, rfl, rfl, ?_⟩
    · rw [ht]
      rfl
    · rw [ht]
      exact (MiniNumber.reads_count (n := 0) (by norm_num)).bind (Reads.pure none)
    · exact fun weigh sort sort' hsort hsort' old old' r r' hr hr' =>
        recalculateTree_agree hsort hsort' hr hr'
  | some t =>
    obtain ⟨bytes, t', hwrite, hread, hmirror⟩ :=
      readDataStream_writeDataStream cut ht fun n hn => hstored t ht n hn
    rw [(unbranched_map.mpr (hline t ht)).mirror_eq] at hmirror
    obtain ⟨tree', hroot, hsame⟩ := exists_sameTree ht hmirror
    exact ⟨bytes, hwrite, tree', hroot ▸ hread, hsame⟩

end Restore

/-! ### A tree that is not restored -/

/-- A hash of one byte, to run the model with. -/
def sumHash : Crypto := ⟨fun bs => [bs.sum]⟩

/-- The same weight for every block. -/
def evenWeight : ℕ → Text := fun _ => MiniNumber.ascii "1"

/-- A block without a body, with what is derived from its header. -/
def sampleTxPoW (header : TxHeader) : TxPoW :=
  match TxPoW.calculateTXPOWID sumHash evenWeight header none with
  | .ok t => t
  | .error _ => TxPoW.sample [] 0 0 (fun _ => MiniData.zeroTxPowID) TxPoW.zero_lt_limit

/-- A node with such a block and an empty MMR. -/
def sampleNode (header : TxHeader) : BlockNode :=
  ⟨⟨sampleTxPoW header, [], [], []⟩, { MMR.starting .zero .zero with finalized := true }, [], []⟩

/-- A sample block is one that arrives unchanged. -/
theorem wire_sampleTxPoW {header : TxHeader} (h : header.Wire) :
    (sampleTxPoW header).Wire sumHash evenWeight ∧ (sampleTxPoW header).header = header ∧
      (sampleTxPoW header).body = none := by
  obtain ⟨bs, hbs, -⟩ := TxHeader.transmits h
  have hencode : TxPoW.encode header none = .ok (bs ++ [0]) := by
    rw [TxPoW.encode, hbs]
    rfl
  obtain ⟨t, ht, hheader, hbody⟩ := TxPoW.calculateTXPOWID_of_encode sumHash evenWeight hencode
  have hsample : sampleTxPoW header = t := by
    unfold sampleTxPoW
    rw [ht]
  rw [hsample]
  exact ⟨⟨hheader ▸ h, by simp [hbody], by rw [hheader, hbody]; exact ht⟩, hheader, hbody⟩

theorem stored_sampleNode {header : TxHeader} (h : header.Wire) :
    Stored sumHash evenWeight id false (sampleNode header) := by
  obtain ⟨hwire, -, hbody⟩ := wire_sampleTxPoW h
  have hmmr : MMR.Wire sumHash { MMR.starting .zero .zero with finalized := true } :=
    ⟨MiniNumber.canonical_zero, ⟨by decide, by decide⟩, by decide, _, MMR.loadedFrom_starting _ _, rfl, rfl⟩
  refine stored_of_held (fun es => List.Perm.refl es) ⟨⟨hwire, ?_, ?_, ?_, ?_, ?_, ?_⟩, hmmr, ?_, ?_, ?_, ?_⟩
    ⟨⟨?_, ?_, ?_⟩, ?_⟩ rfl
  any_goals simp [sampleNode]
  unfold TxPoW.Held
  rw [hbody]
  simp

/-- A header with a time and a parent. -/
def headerOn (parent : MiniData) (number : ℕ) (time : StoredNumber)
    (h : number < 10 ^ 64 := by decide) : TxHeader :=
  TxPoW.sampleHeader ⟨.ofInt number, MiniNumber.canonical_ofNat h⟩ time fun i =>
    if (i : ℕ) = 0 then parent else MiniData.zeroTxPowID

def nodeRoot : BlockNode := 
  sampleNode (headerOn MiniData.zeroTxPowID 0 TxPoW.oneStored TxPoW.zero_lt_limit)

def leftHeader : TxHeader :=
  headerOn nodeRoot.getTxPoW.txPoWID 1 TxPoW.oneStored TxPoW.one_lt_limit

def rightHeader : TxHeader :=
  headerOn nodeRoot.getTxPoW.txPoWID 1 Transaction.sampleTen TxPoW.one_lt_limit

/-- A tree of sample nodes whose headers are in the limits. -/
def sampleTree (t : RoseTree BlockNode) (blocks : BlockTree)
    (hblocks : blocks.root = some (t.map BlockNode.getTxPoW))
    (hids : ∀ n ∈ t.preorder, n.getTxPoWID ≠ []) (hmmr : ∀ n ∈ t.preorder, n.mmr.useMegaMMR = false)
    (hlen : t.preorder.length < 2 ^ 31) : NodeTree false where
  root := some t
  blocks := blocks
  blocks_eq := hblocks
  named := by
    rintro _ ⟨⟩
    exact hids
  attached := by
    rintro _ ⟨⟩
    exact hmmr
  counted := by
    rintro _ ⟨⟩
    exact hlen

/-- A root with two children. -/
def twoChildren : RoseTree BlockNode :=
  .node nodeRoot [.node (sampleNode leftHeader) [], .node (sampleNode rightHeader) []]

def twoChildrenTree : NodeTree false :=
  sampleTree twoChildren
    (.ofRoot (twoChildren.map BlockNode.getTxPoW) ⟨[], twoChildren.map BlockNode.getTxPoW⟩ rfl
      (by decide +kernel))
    rfl (by decide +kernel) (by decide +kernel) (by decide +kernel)

/-- A root with one child. -/
def oneChild : RoseTree BlockNode := .node nodeRoot [.node (sampleNode leftHeader) []]

def oneChildTree : NodeTree false :=
  sampleTree oneChild
    (.ofRoot (oneChild.map BlockNode.getTxPoW) ⟨[], oneChild.map BlockNode.getTxPoW⟩ rfl
      (by decide +kernel))
    rfl (by decide +kernel) (by decide +kernel) (by decide +kernel)

theorem wire_headerOn {parent : MiniData} (hparent : parent.getLength ≤ MiniData.maxHashLength)
    (number : ℕ) (time : StoredNumber) (h : number < 10 ^ 64) :
    (headerOn parent number time h).Wire := by
  have hdata : 1 ≤ MiniData.maxMiniDataLength := by decide
  have hhash : 1 ≤ MiniData.maxHashLength := by decide
  refine ⟨hdata, hdata, fun i => ?_, hhash, ⟨hdata, hdata⟩, hhash, hhash⟩
  show (if (i : ℕ) = 0 then parent else MiniData.zeroTxPowID).getLength ≤ _
  split_ifs
  · exact hparent
  · decide

theorem stored_twoChildren : ∀ n ∈ twoChildren.preorder, Stored sumHash evenWeight id false n := by
  have hroot : nodeRoot.getTxPoW.txPoWID.getLength ≤ MiniData.maxHashLength := by decide +kernel
  intro n hn
  rw [twoChildren, preorder_node] at hn
  simp only [List.flatMap_cons, List.flatMap_nil, preorder_node, List.mem_cons, List.cons_append,
    List.nil_append, List.not_mem_nil, or_false] at hn
  rcases hn with rfl | rfl | rfl
  · exact stored_sampleNode (wire_headerOn (by decide) _ _ _)
  · exact stored_sampleNode (wire_headerOn hroot _ _ _)
  · exact stored_sampleNode (wire_headerOn hroot _ _ _)

/-- The two children change places. -/
theorem not_restores :
    ¬ ∀ tree : NodeTree false, Restores sumHash evenWeight id (fun _ => []) tree := by
  intro h
  have hline := unbranched_of_restores (show twoChildrenTree.root = some twoChildren from rfl)
    stored_twoChildren (h _)
  exact absurd (hline [] twoChildren rfl) (by decide)

/-- A root with one child is restored. -/
theorem restores_iff_oneChild :
    Restores sumHash evenWeight id (fun _ => []) oneChildTree := by
  refine (restores_iff oneChildTree ?_).mpr ?_
  · rintro _ ⟨⟩ n hn
    refine stored_twoChildren n ?_
    rw [oneChild, preorder_node] at hn
    rw [twoChildren, preorder_node]
    simp only [List.flatMap_cons, List.flatMap_nil, preorder_node, List.mem_cons, List.append_nil,
      List.not_mem_nil, or_false] at hn ⊢
    rcases hn with rfl | rfl
    · exact Or.inl rfl
    · exact Or.inr (by simp)
  · rintro _ ⟨⟩
    rw [oneChild, unbranched_node]
    refine ⟨le_rfl, fun c hc => ?_⟩
    obtain rfl := List.mem_singleton.mp hc
    rw [unbranched_node]
    simp

end TxPowTree

end Minima
