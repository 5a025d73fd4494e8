import Minima.Objects.CreateIBD

/-! # Two nodes that weigh their chains against each other

A node weighs its complete chain against that of a peer, both from the newest block on that they have in
common, and keeps its own if it weighs as much. When both nodes do so, they find the same block and
compare the same two weights, so that they never both give up their chains.

* **`Cascade.deepCopy_sublist`** — a copy of a cascade has only blocks of the cascade, in their order.
* **`IBD.findCrossover_eq`** — the four searches find the newest common block.
* **`SyncSource.checkOurChainHeavier_consistent`** — the two contests come to opposite results, or to a
  draw that both survive. -/

namespace Minima

open NumberedChain

/-- What a chain is compared by: the id of a block and its number. -/
def TxPoW.tag (t : TxPoW) : MiniData × ℚ := (t.txPoWID, t.getBlockNumber.toRat)

/-! ## Copies of cascades -/

namespace Cascade

variable {C : Crypto} {weightText : ℕ → Text} {levelNodes : ℕ}

/-- **A node as the constructor makes it**: a block without its body, whose id is the hash of its header. -/
structure Stored (C : Crypto) (node : CascadeNode) : Prop where
  header : node.txpow.header.Wire
  body : node.txpow.body = none
  id : node.txpow.txPoWID = C.hashObject node.txpow.header.writeDataStream
  level : node.currentLevel < 2 ^ 31

/-- A node is read back with its tag and its level. -/
theorem transmitsNode (weightText : ℕ → Text) {node : CascadeNode} (h : Stored C node) :
    ∃ bytes t, writeNode node = .ok bytes ∧ Reads (readNode C weightText) bytes (t, (node.currentLevel : ℤ)) ∧
      t.tag = node.txpow.tag := by
  obtain ⟨hs, hhs, -⟩ := TxHeader.transmits h.header
  have hencode : TxPoW.encode node.txpow.header none = .ok (hs ++ [0]) := by
    rw [TxPoW.encode, hhs]
    rfl
  obtain ⟨t, ht, hheader, -⟩ := TxPoW.calculateTXPOWID_of_encode C weightText hencode
  have hid := (TxPoW.calculateTXPOWID_eq_ok ht).2.2
  obtain ⟨bs, hbs, hread⟩ :=
    TxPoW.sends h.header (by rw [h.body]; rfl) TxPoW.transmitsNoBody ht
  refine ⟨bs ++ (MiniNumber.ofInt node.currentLevel).writeDataStream, t, ?_, ?_, ?_⟩
  · rw [writeNode, hbs]
    rfl
  · exact hread.bind (MiniNumber.reads_count h.level).then_pure
  · rw [TxPoW.tag, TxPoW.tag, TxPoW.getBlockNumber, TxPoW.getBlockNumber, hheader, hid, h.id]

/-- The nodes of a cascade are read back one after the other. -/
theorem transmitsNodes (weightText : ℕ → Text) {nodes : List CascadeNode}
    (h : ∀ node ∈ nodes, Stored C node) :
    ∃ bytes read, Coin.writeAll writeNode nodes = .ok bytes ∧
      Reads (readNodes C weightText nodes.length 0) bytes read ∧
      read.map (fun n => n.1.tag) = nodes.map fun n => n.txpow.tag := by
  induction nodes with
  | nil => exact ⟨[], [], rfl, Reads.pure [], rfl⟩
  | cons node nodes ih =>
    obtain ⟨bs, t, hbs, hread, htag⟩ := transmitsNode weightText (h node List.mem_cons_self)
    obtain ⟨cs, read, hcs, hreads, htags⟩ := ih fun n hn => h n (List.mem_cons_of_mem _ hn)
    refine ⟨bs ++ cs, (t, (node.currentLevel : ℤ)) :: read, ?_, fun rest => ?_, ?_⟩
    · rw [Coin.writeAll] at hcs ⊢
      rw [List.map_cons, Crypto.concatAll, hbs, hcs]
      rfl
    · rw [List.append_assoc, List.length_cons, readNodes]
      simp only [hread (cs ++ rest)]
      exact (hreads.then_pure rest)
    · rw [List.map_cons, List.map_cons, htag, htags]

/-- The loop of a pass drops blocks and keeps the order of the others. -/
theorem blocks_cascadeLoop_sublist (lim : LevelScan.Limits) (s : LevelScan.State) (total : MiniNumber)
    (nodes : List CascadeNode) : (blocks (cascadeLoop lim s total nodes).1).Sublist (blocks nodes) := by
  induction nodes generalizing s total with
  | nil => exact List.Sublist.refl _
  | cons n ns ih =>
    by_cases hs : s.level ≤ n.superLevel
    · cases hw : addWeight total n.txpow s.level with
      | error e =>
        rw [cascadeLoop_of_error ns hs hw, blocks_cons, blocks_cons]
        exact List.Sublist.refl _
      | ok t =>
        rw [cascadeLoop_of_ok ns hs hw, blocks_cons, blocks_cons]
        exact (ih _ _).cons_cons _
    · rw [cascadeLoop_of_lt ns (not_le.mp hs), blocks_cons]
      exact (ih _ _).cons _

theorem blocks_finalCascade_sublist {c c' : Cascade} (h : c.finalCascade levelNodes = .ok c') :
    (blocks c'.nodes).Sublist (blocks c.nodes) := by
  unfold finalCascade at h
  obtain ⟨nodes, total⟩ := c
  cases nodes with
  | nil =>
    cases h
    exact List.Sublist.refl _
  | cons tip ns =>
    cases hw : tipWeight tip with
    | error e =>
      rw [cascadeChain_of_tip_error hw] at h
      cases h
    | ok w =>
      cases hl : (cascadeLoop (limits levelNodes) start w ns).2 with
      | error e =>
        rw [cascadeChain_of_error hw hl] at h
        cases h
      | ok t =>
        rw [cascadeChain_of_ok hw hl] at h
        cases h
        exact (blocks_cascadeLoop_sublist _ _ _ _).cons_cons _

/-- **A copy of a cascade has only blocks of the cascade**, in their order. -/
theorem deepCopy_sublist {c copy : Cascade} (h : ∀ node ∈ c.nodes, Stored C node)
    (hlen : c.nodes.length < 2 ^ 31) (hcopy : c.deepCopy C weightText levelNodes = .ok copy) :
    ((blocks copy.nodes).map TxPoW.tag).Sublist ((blocks c.nodes).map TxPoW.tag) := by
  obtain ⟨bytes, read, hbytes, hreads, htags⟩ := transmitsNodes weightText h
  have hwrite : c.writeDataStream = .ok ((MiniNumber.ofInt c.nodes.length).writeDataStream ++ bytes) := by
    rw [writeDataStream, hbytes]
    rfl
  rw [deepCopy, hwrite, Result.ok_bind] at hcopy
  have hnodes : ofNodes levelNodes read = .ok copy := by
    obtain ⟨rest, hstream⟩ : ∃ rest, readDataStream C weightText levelNodes
        ((MiniNumber.ofInt c.nodes.length).writeDataStream ++ bytes) = (.ok copy, rest) :=
      ⟨_, Prod.ext hcopy rfl⟩
    obtain ⟨len, rest, hlength, hstream⟩ := Reader.bind_eq_ok.mp hstream
    have hcount := (MiniNumber.reads_count hlen bytes).symm.trans hlength
    simp only [Prod.mk.injEq, Except.ok.injEq] at hcount
    obtain ⟨rfl, rfl⟩ := hcount
    obtain ⟨-, hstream⟩ := Reader.guard_eq_ok.mp hstream
    obtain ⟨nodes, rest, hloop, hstream⟩ := Reader.bind_eq_ok.mp hstream
    have hread := hreads []
    rw [List.append_nil] at hread
    rw [Int.toNat_natCast, hread, Prod.mk.injEq, Except.ok.injEq] at hloop
    obtain ⟨rfl, -⟩ := hloop
    exact congrArg Prod.fst hstream
  have hall : (blocks (read.map readNodeOf)).map TxPoW.tag = (blocks c.nodes).map TxPoW.tag := by
    rw [blocks, blocks, List.map_map, List.map_map, List.map_map]
    exact htags
  rw [← hall]
  cases read with
  | nil =>
    cases hnodes
    exact List.Sublist.refl _
  | cons tip read =>
    rw [ofNodes] at hnodes
    split_ifs at hnodes with hlevel
    · cases hnodes
    · exact (blocks_finalCascade_sublist hnodes).map _

end Cascade

/-! ## The newest common block -/

namespace IBD

/-- The blocks of a chain from its tip on: the tree, and then the cascade. -/
def line (c : Chain) : List TxPoW := c.txpows.reverse ++ cascadeBlocks c

/-- A search for the first block that is in a list, in any order of the list. -/
theorem find?_contains (txpows : List TxPoW) {ours : List TxPoW} (hperm : ours.Perm txpows)
    (theirs : List TxPoW) :
    theirs.find? (contains txpows) = latestCommon TxPoW.txPoWID ours theirs := by
  refine List.find?_congr fun t _ => ?_
  rw [contains, Bool.eq_iff_iff, decide_eq_true_iff, (hperm.map TxPoW.txPoWID).mem_iff, List.mem_map,
    List.any_eq_true]
  simp only [beq_iff_eq]

section Crossover

variable {current zIBD : Chain} (hcurrent : Ascending (fun t => t.getBlockNumber.toRat) (line current).reverse)
  (hzIBD : Ascending (fun t => t.getBlockNumber.toRat) (line zIBD).reverse)
  (hagree : Agree (fun t => t.getBlockNumber.toRat) TxPoW.txPoWID (line current) (line zIBD))
include hcurrent hzIBD hagree

/-- **The four searches find the newest common block.** -/
theorem findCrossover_eq :
    findCrossover current zIBD = latestCommon TxPoW.txPoWID (line current) (line zIBD) := by
  unfold findCrossover
  rw [find?_contains _ (List.reverse_perm current.txpows), find?_contains _ (List.Perm.refl _),
    find?_contains _ (List.reverse_perm current.txpows), find?_contains _ (List.Perm.refl _)]
  exact latestCommon_pieces hzIBD hcurrent hagree

/-- Both sides find the same block. -/
theorem findCrossover_comm :
    (findCrossover current zIBD).map TxPoW.txPoWID = (findCrossover zIBD current).map TxPoW.txPoWID := by
  rw [findCrossover_eq hcurrent hzIBD hagree, findCrossover_eq hzIBD hcurrent hagree.symm]
  exact latestCommon_comm hcurrent hzIBD hagree

end Crossover

/-- The weight of a chain from a block on, and its whole weight without one. -/
def weightFrom (levelNodes : ℕ) (found : Option MiniData) (c : Chain) : Result ℤ :=
  match found with
  | some foundblockID => do
    let shortened ← createShortenedIBD levelNodes c foundblockID
    getTotalWeight shortened
  | none => getTotalWeight c

/-- Whether a weight is at least another one. -/
def compareWeights (myweight theirweight : Result ℤ) : Result Bool := do
  let my ← myweight
  let their ← theirweight
  return their ≤ my

/-- A contest is a comparison of two weights. -/
theorem checkOurChainHeavier_eq (levelNodes : ℕ) (current zIBD : Chain) :
    checkOurChainHeavier levelNodes current zIBD = compareWeights
      (weightFrom levelNodes ((findCrossover current zIBD).map TxPoW.txPoWID) current)
      (weightFrom levelNodes ((findCrossover current zIBD).map TxPoW.txPoWID) zIBD) := by
  unfold checkOurChainHeavier compareWeights
  cases findCrossover current zIBD with
  | none => rfl
  | some found => simp only [Option.map_some, weightFrom, bind_assoc]

theorem compareWeights_eq_ok {myweight theirweight : Result ℤ} {keeps : Bool} :
    compareWeights myweight theirweight = .ok keeps ↔
      ∃ my their, myweight = .ok my ∧ theirweight = .ok their ∧ keeps = decide (their ≤ my) := by
  constructor
  · intro h
    obtain ⟨my, hmy, h⟩ := Result.bind_eq_ok.mp h
    obtain ⟨their, htheir, h⟩ := Result.bind_eq_ok.mp h
    cases h
    exact ⟨my, their, hmy, htheir, rfl⟩
  · rintro ⟨my, their, rfl, rfl, rfl⟩
    rfl

/-- **Two contests over the same two weights**: they end or fail together, at least one of the two keeps
its chain, and exactly one does if the weights differ. -/
structure Consistent (contestA contestB : Result Bool) (weightA weightB : Result ℤ) : Prop where
  sameA : contestA = compareWeights weightA weightB
  sameB : contestB = compareWeights weightB weightA
  ends : (∃ keeps, contestA = .ok keeps) ↔ ∃ keeps, contestB = .ok keeps
  oneKeeps : ∀ keepsA keepsB, contestA = .ok keepsA → contestB = .ok keepsB → keepsA = true ∨ keepsB = true
  onlyOne : ∀ a b, weightA = .ok a → weightB = .ok b → a ≠ b →
    ∃ keeps, contestA = .ok keeps ∧ contestB = .ok (!keeps)

theorem consistent_compareWeights (weightA weightB : Result ℤ) :
    Consistent (compareWeights weightA weightB) (compareWeights weightB weightA) weightA weightB where
  sameA := rfl
  sameB := rfl
  ends := by
    simp only [compareWeights_eq_ok]
    constructor
    · rintro ⟨-, a, b, ha, hb, -⟩
      exact ⟨_, b, a, hb, ha, rfl⟩
    · rintro ⟨-, b, a, hb, ha, -⟩
      exact ⟨_, a, b, ha, hb, rfl⟩
  oneKeeps := by
    intro keepsA keepsB hA hB
    obtain ⟨a, b, rfl, rfl, rfl⟩ := compareWeights_eq_ok.mp hA
    obtain ⟨b', a', hb, ha, rfl⟩ := compareWeights_eq_ok.mp hB
    cases hb
    cases ha
    rw [decide_eq_true_iff, decide_eq_true_iff]
    exact le_total b a
  onlyOne := by
    rintro a b rfl rfl hne
    refine ⟨decide (b ≤ a), rfl, ?_⟩
    have hopposite : decide (a ≤ b) = !decide (b ≤ a) := by
      rw [← decide_not, decide_eq_decide, not_le]
      exact ⟨fun h => lt_of_le_of_ne h hne, le_of_lt⟩
    rw [← hopposite]
    rfl

end IBD

/-! ## Contests -/

namespace SyncSource

variable (C : Crypto) (weightText : ℕ → Text) (levelNodes : ℕ)

/-- **`checkOurChainHeavier`** of a node: its own complete download against one that it was sent. -/
def checkOurChainHeavier (node : SyncSource) (zIBD : IBD) : Result Bool := do
  let current ← node.createCompleteIBD C weightText levelNodes
  IBD.checkOurChainHeavier levelNodes current.chain zIBD.chain

/-- The blocks of a node from its tip on: its main chain, and then its cascade. -/
def line (node : SyncSource) : List TxPoW :=
  ((node.tree.map TipTree.mainChain).getD []).map TxBlock.txpow ++ Cascade.blocks node.cascade.nodes

/-- **An honest node**: the numbers go up from the root of its cascade to the tip of its tree, and the
nodes of the cascade are as the constructor makes them. -/
structure Honest (C : Crypto) (node : SyncSource) : Prop where
  ascending : Ascending (fun t => t.getBlockNumber.toRat) node.line.reverse
  stored : ∀ n ∈ node.cascade.nodes, Cascade.Stored C n
  length : node.cascade.nodes.length < 2 ^ 31

variable {C weightText levelNodes} {node : SyncSource} {ibd : IBD}

/-- A complete download has the blocks of the node, in their order. -/
theorem line_createCompleteIBD (h : node.Honest C)
    (hibd : node.createCompleteIBD C weightText levelNodes = .ok ibd) :
    ((IBD.line ibd.chain).map TxPoW.tag).Sublist (node.line.map TxPoW.tag) := by
  unfold createCompleteIBD at hibd
  obtain ⟨copy, hcopy, hibd⟩ := Result.bind_eq_ok.mp hibd
  cases hibd
  have htree : (((node.tree.map TipTree.mainBlocks).getD []).map TxBlock.txpow).reverse =
      ((node.tree.map TipTree.mainChain).getD []).map TxBlock.txpow := by
    cases node.tree with
    | none => rfl
    | some tree => simp [TipTree.mainBlocks]
  rw [IBD.line, line, List.map_append, List.map_append]
  refine List.Sublist.append ?_ (Cascade.deepCopy_sublist h.stored h.length hcopy)
  rw [IBD.chain, htree]

theorem ascending_createCompleteIBD (h : node.Honest C)
    (hibd : node.createCompleteIBD C weightText levelNodes = .ok ibd) :
    Ascending (fun t => t.getBlockNumber.toRat) (IBD.line ibd.chain).reverse := by
  have hline := h.ascending
  rw [Ascending, List.pairwise_reverse] at hline ⊢
  have hmap : (node.line.map TxPoW.tag).Pairwise fun a b => b.2 < a.2 := List.pairwise_map.mpr hline
  exact List.pairwise_map.mp (hmap.sublist (line_createCompleteIBD h hibd))

/-- A block of a complete download has the tag of a block of the node. -/
theorem exists_tag_eq (h : node.Honest C)
    (hibd : node.createCompleteIBD C weightText levelNodes = .ok ibd) {t : TxPoW}
    (ht : t ∈ IBD.line ibd.chain) : ∃ t' ∈ node.line, t'.tag = t.tag :=
  List.mem_map.mp ((line_createCompleteIBD h hibd).subset (List.mem_map_of_mem ht))

/-- **The contest of two nodes is consistent.** Both find the same newest common block, if any, and
compare the same two weights, from it on or of the whole chains; so they never both give up their
chains. -/
theorem checkOurChainHeavier_consistent {A B : SyncSource} (hA : A.Honest C) (hB : B.Honest C)
    (hagree : Agree (fun t => t.getBlockNumber.toRat) TxPoW.txPoWID A.line B.line) {ibdA ibdB : IBD}
    (hibdA : A.createCompleteIBD C weightText levelNodes = .ok ibdA)
    (hibdB : B.createCompleteIBD C weightText levelNodes = .ok ibdB) :
    ∃ found, (IBD.findCrossover ibdA.chain ibdB.chain).map TxPoW.txPoWID = found ∧
      (IBD.findCrossover ibdB.chain ibdA.chain).map TxPoW.txPoWID = found ∧
      IBD.Consistent (A.checkOurChainHeavier C weightText levelNodes ibdB)
        (B.checkOurChainHeavier C weightText levelNodes ibdA)
        (IBD.weightFrom levelNodes found ibdA.chain) (IBD.weightFrom levelNodes found ibdB.chain) := by
  have hline : Agree (fun t => t.getBlockNumber.toRat) TxPoW.txPoWID (IBD.line ibdA.chain)
      (IBD.line ibdB.chain) := by
    have hfrom : ∀ t ∈ IBD.line ibdA.chain ++ IBD.line ibdB.chain,
        ∃ t' ∈ A.line ++ B.line, t'.tag = t.tag := by
      intro t ht
      rcases List.mem_append.mp ht with ht | ht
      · obtain ⟨t', ht', htag⟩ := exists_tag_eq hA hibdA ht
        exact ⟨t', List.mem_append_left _ ht', htag⟩
      · obtain ⟨t', ht', htag⟩ := exists_tag_eq hB hibdB ht
        exact ⟨t', List.mem_append_right _ ht', htag⟩
    intro x hx y hy hid
    obtain ⟨x', hx', hxtag⟩ := hfrom x hx
    obtain ⟨y', hy', hytag⟩ := hfrom y hy
    simp only [TxPoW.tag, Prod.mk.injEq] at hxtag hytag
    show x.getBlockNumber.toRat = y.getBlockNumber.toRat
    rw [← hxtag.2, ← hytag.2]
    exact hagree x' hx' y' hy' (by rw [hxtag.1, hytag.1, hid])
  have hcomm := IBD.findCrossover_comm (ascending_createCompleteIBD hA hibdA)
    (ascending_createCompleteIBD hB hibdB) hline
  refine ⟨_, rfl, hcomm.symm, ?_⟩
  have hcontestA : A.checkOurChainHeavier C weightText levelNodes ibdB =
      IBD.checkOurChainHeavier levelNodes ibdA.chain ibdB.chain := by
    rw [checkOurChainHeavier, hibdA, Result.ok_bind]
  have hcontestB : B.checkOurChainHeavier C weightText levelNodes ibdA =
      IBD.checkOurChainHeavier levelNodes ibdB.chain ibdA.chain := by
    rw [checkOurChainHeavier, hibdB, Result.ok_bind]
  rw [hcontestA, hcontestB, IBD.checkOurChainHeavier_eq, IBD.checkOurChainHeavier_eq, ← hcomm]
  exact IBD.consistent_compareWeights _ _

/-! ### A contest between a pruned node and a peer on a fork -/

section Sample

open TxPowTree

/-- A node with two blocks in its cascade, and one in its tree. -/
def prunedNode : SyncSource where
  tree := some ⟨.node thirdBlock [], ⟨[], .node thirdBlock []⟩, rfl⟩
  cascade := (Cascade.empty.addToTip firstBlock.txpow).addToTip secondBlock.txpow
  archive := .empty

/-- A line with numbers that go up. -/
theorem ascending_of_numbers {node : SyncSource} (numbers : List ℤ)
    (hnumbers : node.line.reverse.map TxPoW.getBlockNumber = numbers.map MiniNumber.ofInt)
    (hlt : numbers.Pairwise (· < ·)) : Ascending (fun t => t.getBlockNumber.toRat) node.line.reverse := by
  have hmap : (node.line.reverse.map TxPoW.getBlockNumber).Pairwise fun a b => a.toRat < b.toRat := by
    rw [hnumbers, List.pairwise_map]
    refine hlt.imp fun hab => ?_
    rw [MiniNumber.toRat_ofInt, MiniNumber.toRat_ofInt]
    exact_mod_cast hab
  rw [List.pairwise_map] at hmap
  exact hmap

theorem honest_prunedNode : prunedNode.Honest sumHash := by
  refine ⟨ascending_of_numbers [1, 2, 3] (by decide +kernel) (by decide), fun n hn => ?_, by decide⟩
  have hstored : ∀ {b : TxBlock}, b.Wire sumHash evenWeight → Cascade.Stored sumHash (.ofTxPoW b.txpow) :=
    fun {b} hb => ⟨hb.txpow.header, rfl, (TxPoW.calculateTXPOWID_eq_ok hb.txpow.derived).2.2, by
      show 0 < 2 ^ 31
      decide⟩
  have hmem : n = .ofTxPoW secondBlock.txpow ∨ n = .ofTxPoW firstBlock.txpow := by
    simpa [prunedNode, Cascade.addToTip, Cascade.empty] using hn
  rcases hmem with rfl | rfl
  · exact hstored (blockOn_spec _ (by decide +kernel) 2 TxPoW.oneStored (by decide)).1.1
  · exact hstored (blockOn_spec _ (by decide) 1 TxPoW.oneStored (by decide)).1.1

theorem honest_forkPeer : forkPeer.Honest sumHash where
  ascending := ascending_of_numbers [1, 2, 3] (by decide +kernel) (by decide)
  stored := fun n hn => by cases hn
  length := by decide

/-- The two nodes weigh their chains from the second block on, and come to consistent results. -/
theorem checkOurChainHeavier_consistent_prunedNode :
    ∃ ibdA ibdB, prunedNode.createCompleteIBD sumHash evenWeight 256 = .ok ibdA ∧
      forkPeer.createCompleteIBD sumHash evenWeight 256 = .ok ibdB ∧
      ∃ found, (IBD.findCrossover ibdA.chain ibdB.chain).map TxPoW.txPoWID = found ∧
        (IBD.findCrossover ibdB.chain ibdA.chain).map TxPoW.txPoWID = found ∧
        IBD.Consistent (prunedNode.checkOurChainHeavier sumHash evenWeight 256 ibdB)
          (forkPeer.checkOurChainHeavier sumHash evenWeight 256 ibdA)
          (IBD.weightFrom 256 found ibdA.chain) (IBD.weightFrom 256 found ibdB.chain) := by
  have hcreates : ∀ node : SyncSource, (node.createCompleteIBD sumHash evenWeight 256).isOk = true →
      ∃ ibd, node.createCompleteIBD sumHash evenWeight 256 = .ok ibd := by
    intro node h
    cases hibd : node.createCompleteIBD sumHash evenWeight 256 with
    | ok ibd => exact ⟨ibd, rfl⟩
    | error e =>
      rw [hibd] at h
      cases h
  obtain ⟨ibdA, hibdA⟩ := hcreates prunedNode (by decide +kernel)
  obtain ⟨ibdB, hibdB⟩ := hcreates forkPeer (by decide +kernel)
  have hnumbers : ∀ x ∈ prunedNode.line ++ forkPeer.line, ∀ y ∈ prunedNode.line ++ forkPeer.line,
      x.txPoWID = y.txPoWID → x.getBlockNumber = y.getBlockNumber := by decide +kernel
  exact ⟨ibdA, ibdB, hibdA, hibdB, checkOurChainHeavier_consistent honest_prunedNode honest_forkPeer
    (fun x hx y hy hid => congrArg MiniNumber.toRat (hnumbers x hx y hy hid)) hibdA hibdB⟩

end Sample

end SyncSource

end Minima
