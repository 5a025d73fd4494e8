import Minima.Database.ArchiveManager
import Minima.Database.TreeStream
import Minima.Objects.IBD

/-! # `createIBD`: what a node sends to a peer that syncs

A peer greets with the number of its tip and the ids of its chain. The node answers with the blocks
behind the newest block that both have, from its tree and, when the peer is behind the root of the tree,
from its archive; or, when it finds no such block, with its complete tree and the cascade behind it.

* **`SyncSource.createIBD`**, **`SyncSource.createCompleteIBD`** — the answers.
* **`SyncSource.createArchiveIBD`** — the answer to a request for archived blocks.
* **`SyncSource.createIBD_contiguous`** — an answer is a contiguous piece of the chain, up to the tip. -/

namespace Minima

open NumberedChain RoseTree

/-- `Greeting`: the number of the peer's tip, −1 without one, and the ids of its chain, tip first. -/
structure Greeting where
  topBlock : MiniNumber
  chain : List MiniData

namespace Greeting

/-- `TRILLION`, parsed from `"1E12"`. -/
def trillion : MiniNumber := ⟨1, -12⟩

/-- `getRootBlock`. -/
def getRootBlock (zGreeting : Greeting) : Result MiniNumber :=
  if zGreeting.topBlock.isEqual .minusOne then .ok .minusOne
  -- something is wrong here
  else if zGreeting.topBlock.isMore trillion then .ok .minusOne
  else zGreeting.topBlock.sub (.ofInt ((zGreeting.chain.length : ℤ) - 1))

end Greeting

/-- A tree of blocks and its tip. -/
structure TipTree where
  root : RoseTree TxBlock
  tip : Ref TxBlock
  tip_of : tip.Of root

namespace TipTree

/-- From the tip back to the root: the loop over `getParent`. -/
def mainChain (tree : TipTree) : List TxBlock := (tree.root.lineage tree.tip).map fun node => node.tree.value

/-- The blocks of a list that was filled at its front. -/
def mainBlocks (tree : TipTree) : List TxBlock := tree.mainChain.reverse

end TipTree

/-- **A node as it answers**: its tree when it has one, its cascade and its archive. -/
structure SyncSource where
  tree : Option TipTree
  cascade : Cascade
  archive : Archive

namespace SyncSource

/-- `MAX_BLOCKS_FOR_IBD`. -/
def maxBlocksForIBD : MiniNumber := .ofInt 34000

/-- The greeting of a node: its tip, and the ids from there on. -/
def greeting (node : SyncSource) : Greeting :=
  match node.tree with
  | none => ⟨.minusOne, []⟩
  | some tree => ⟨tree.tip.tree.value.txpow.getBlockNumber, tree.mainChain.map fun b => b.txpow.txPoWID⟩

section Create

variable (C : Crypto) (weightText : ℕ → Text) (levelNodes : ℕ) (node : SyncSource)

/-- `createCompleteIBD`: a copy of the cascade, and the blocks of the tree, root first. -/
def createCompleteIBD : Result IBD := do
  let cascade ← node.cascade.deepCopy C weightText levelNodes
  return ⟨some cascade, (node.tree.map TipTree.mainBlocks).getD []⟩

/-- The loop over the ids of a greeting: every twentieth is looked up in the archive. -/
def searchArchive (archive : Archive) : ℕ → List MiniData → MiniNumber
  | _, [] => .minusOne
  | counter, current :: chain =>
    if counter % 20 = 0 then
      let found := archive.existsTxPoW current.to0xString
      if found.isEqual .minusOne then searchArchive archive (counter + 1) chain else found
    else searchArchive archive (counter + 1) chain

/-- Every twentieth id, and then the last one. -/
def findArchived (archive : Archive) (chain : List MiniData) : MiniNumber :=
  let found := searchArchive archive 0 chain
  if found.isEqual .minusOne then
    match chain.getLast? with
    | some last => archive.existsTxPoW last.to0xString
    | none => found
  else found

/-- The answer to a peer whose tip is behind the root of the tree. -/
def createArchivedIBD (tree : TipTree) (zGreeting : Greeting) : Result IBD :=
  let myroot := tree.root.value.txpow.getBlockNumber
  let found := findArchived node.archive zGreeting.chain
  if found.isEqual .minusOne then node.createCompleteIBD C weightText levelNodes
  else do
    let total ← myroot.sub found
    -- too many blocks
    if total.isMore maxBlocksForIBD then node.createCompleteIBD C weightText levelNodes
    else
      let blocks ← node.archive.loadBlockRange C weightText found myroot true
      return ⟨none, blocks.reverse ++ tree.mainBlocks⟩

/-- The first id of a greeting that is the id of a block of the main chain. -/
def findOverlap (tree : TipTree) (chain : List MiniData) : Option Text :=
  (chain.map MiniData.to0xString).find? fun block =>
    (tree.mainChain.map fun b => b.txpow.getTxPoWID).contains block

/-- The blocks from the tip back to one with an id, in order. -/
def blocksAfter (tree : TipTree) (foundblockID : Text) : List TxBlock :=
  (tree.mainChain.takeWhile fun b => b.txpow.getTxPoWID != foundblockID).reverse

/-- What the `catch` makes of an answer: an exception is logged, and the answer is empty. -/
def caught (isvalid : Bool) : Result IBD → Result (Bool × IBD)
  | .ok ibd => .ok (isvalid, ibd)
  | .error (.exception _) => .ok (isvalid, ⟨none, []⟩)
  | .error (.undefined what) => undefinedBehaviour what

/-- **`createIBD`**: whether the peer is on the same chain, and the answer. -/
def createIBD (zGreeting : Greeting) : Result (Bool × IBD) :=
  match node.tree with
  | none => .ok (true, ⟨none, []⟩)
  | some tree =>
    match zGreeting.topBlock.copy, zGreeting.getRootBlock with
    | .error e, _ => caught true (.error e)
    | _, .error e => caught true (.error e)
    | .ok greettip, .ok greetroot =>
      if greettip.isEqual .minusOne then caught true (node.createCompleteIBD C weightText levelNodes)
      else if greettip.isLess tree.root.value.txpow.getBlockNumber then
        caught true (node.createArchivedIBD C weightText levelNodes tree zGreeting)
      else if greetroot.isMore tree.tip.tree.value.txpow.getBlockNumber then
        caught true (node.createCompleteIBD C weightText levelNodes)
      else
        match findOverlap tree zGreeting.chain with
        | some foundblockID => caught true (.ok ⟨none, blocksAfter tree foundblockID⟩)
        -- they are on a different chain
        | none => caught false (node.createCompleteIBD C weightText levelNodes)

/-! ### Requests for archived blocks -/

/-- Where `createArchiveIBD` starts: a request for block zero starts behind the cascade of the archive,
if that has one. -/
def archiveStart (savedCascade : Option Cascade) (zFirstBlock : MiniNumber) :
    Result (MiniNumber × Option Cascade) := do
  if zFirstBlock.isEqual .zero then
    match ← node.archive.loadLastBlock C weightText, savedCascade with
    | some last, some casc =>
      if last.txpow.getBlockNumber.isEqual .one then return (zFirstBlock, none)
      match casc.getTip with
      | none => undefinedBehaviour "null tip of a cascade"
      | some tip => return (← tip.txpow.getBlockNumber.increment, some casc)
    | _, _ => return (zFirstBlock, none)
  else return (zFirstBlock, none)

/-- The loop over the blocks of the tree. It reads through `tip`, which is null behind the root, and
appends nothing. -/
def addMainBlocks (ibd : IBD) : List TxBlock → Result IBD
  | [] => .ok ibd
  | _ :: _ => undefinedBehaviour "null tip"

/-- A request for the root of the tree, which is one for the tree. -/
def addMainTree (zFirstBlock : MiniNumber) (ibd : IBD) : Result IBD :=
  match node.tree with
  | none => undefinedBehaviour "null root"
  | some tree =>
    let rootblock := tree.root.value.txpow.getBlockNumber
    let reqblock := if rootblock.isEqual .one && zFirstBlock.isEqual .zero then .one else zFirstBlock
    if rootblock.isEqual reqblock then addMainBlocks ibd tree.mainBlocks else .ok ibd

/-- **`createArchiveIBD`**: 256 blocks of the archive, and the tree for its root. An exception is logged,
and ends it with what it has so far. -/
def createArchiveIBD (shuttingDown : Bool) (savedCascade : Option Cascade) (zFirstBlock : MiniNumber)
    (zUseLocal : Bool) : Result IBD :=
  if shuttingDown then .ok ⟨none, []⟩
  else match node.archiveStart C weightText savedCascade zFirstBlock with
    | .error (.exception _) => .ok ⟨none, []⟩
    | .error (.undefined what) => undefinedBehaviour what
    | .ok (startcount, cascade) =>
      let range := do
        let stop ← startcount.add (.ofInt 256)
        let start ← startcount.decrement
        node.archive.loadBlockRange C weightText start stop false
      match range with
      | .error (.exception _) => .ok ⟨cascade, []⟩
      | .error (.undefined what) => undefinedBehaviour what
      | .ok blocks =>
        if zUseLocal then .ok ⟨cascade, blocks⟩ else node.addMainTree zFirstBlock ⟨cascade, blocks⟩

end Create

/-! ## The chain of a node -/

/-- **The block behind another one**: it names it as its parent, and its number is the next one. -/
def Precedes (a b : TxBlock) : Prop :=
  b.txpow.getParentID = .ok a.txpow.txPoWID ∧
    b.txpow.getBlockNumber.toRat = a.txpow.getBlockNumber.toRat + 1

/-- **A node whose archive goes up to its tree**: the archived blocks, oldest first, and behind them the
main chain of the tree are one chain. Its numbers are not negative, and up to the root of the tree they
fit in the column of the archive, which is a `long long`. -/
structure Joined (C : Crypto) (weightText : ℕ → Text) (node : SyncSource) (tree : TipTree)
    (archived : List TxBlock) : Prop where
  tree_eq : node.tree = some tree
  holds : node.archive.Holds C weightText archived
  linked : (archived ++ tree.mainBlocks).IsChain Precedes
  first : ∀ block ∈ (archived ++ tree.mainBlocks).head?, 0 ≤ block.txpow.getBlockNumber.toRat
  root : tree.root.value.txpow.getBlockNumber.toRat < 2 ^ 63

end SyncSource

namespace TipTree

/-- The main chain ends with the root. -/
theorem exists_mainBlocks_eq_cons (tree : TipTree) :
    ∃ blocks, tree.mainBlocks = tree.root.value :: blocks := by
  obtain ⟨line, hline⟩ := exists_lineage_eq_concat tree.tip_of
  exact ⟨(line.map fun node => node.tree.value).reverse, by simp [mainBlocks, mainChain, hline, rootRef]⟩

end TipTree

namespace SyncSource

variable {C : Crypto} {weightText : ℕ → Text} {node : SyncSource} {tree : TipTree} {archived : List TxBlock}

namespace Joined

variable (h : node.Joined C weightText tree archived)
include h

/-- Every number is at least one above those before it. -/
theorem spaced : (archived ++ tree.mainBlocks).Pairwise fun a b =>
    a.txpow.getBlockNumber.toRat + 1 ≤ b.txpow.getBlockNumber.toRat := by
  have htrans : IsTrans TxBlock fun a b => a.txpow.getBlockNumber.toRat + 1 ≤ b.txpow.getBlockNumber.toRat :=
    ⟨fun a b c hab hbc => by linarith⟩
  exact List.isChain_iff_pairwise.mp (h.linked.imp fun a b hab => hab.2.symm.le)

theorem ascending : Ascending (fun b : TxBlock => b.txpow.getBlockNumber.toRat) (archived ++ tree.mainBlocks) :=
  h.spaced.imp fun hab => by linarith

theorem nonneg {block : TxBlock} (hblock : block ∈ archived ++ tree.mainBlocks) :
    0 ≤ block.txpow.getBlockNumber.toRat := by
  have hfirst := h.first
  have hspaced := h.spaced
  cases hchain : archived ++ tree.mainBlocks with
  | nil =>
    rw [hchain] at hblock
    cases hblock
  | cons first rest =>
    rw [hchain] at hblock hfirst hspaced
    have hzero := hfirst first (by simp)
    rcases List.mem_cons.mp hblock with rfl | hmem
    · exact hzero
    · have hnext := (List.pairwise_cons.mp hspaced).1 block hmem
      linarith

/-- The archived blocks are below the root. -/
theorem lt_root {block : TxBlock} (hblock : block ∈ archived) :
    block.txpow.getBlockNumber.toRat + 1 ≤ tree.root.value.txpow.getBlockNumber.toRat := by
  obtain ⟨blocks, hblocks⟩ := tree.exists_mainBlocks_eq_cons
  exact (List.pairwise_append.mp h.spaced).2.2 block hblock tree.root.value (by simp [hblocks])

theorem getAsLong_root : tree.root.value.txpow.getBlockNumber.getAsLong =
    ⌊tree.root.value.txpow.getBlockNumber.toRat⌋ := by
  obtain ⟨blocks, hblocks⟩ := tree.exists_mainBlocks_eq_cons
  exact MiniNumber.getAsLong_eq_floor (h.nonneg (by simp [hblocks])) h.root

theorem getAsLong_archived {block : TxBlock} (hblock : block ∈ archived) :
    block.txpow.getBlockNumber.getAsLong = ⌊block.txpow.getBlockNumber.toRat⌋ := by
  have hlt := h.lt_root hblock
  have hroot := h.root
  exact MiniNumber.getAsLong_eq_floor (h.nonneg (List.mem_append_left _ hblock)) (by linarith)

/-- The numbers of the rows go up, and stay below that of the root. -/
theorem ascending_getAsLong : Ascending (fun b : TxBlock => b.txpow.getBlockNumber.getAsLong) archived := by
  refine (List.pairwise_append.mp h.spaced).1.imp_of_mem fun {a b} ha hb hab => ?_
  show a.txpow.getBlockNumber.getAsLong < b.txpow.getBlockNumber.getAsLong
  rw [h.getAsLong_archived ha, h.getAsLong_archived hb, ← Int.add_one_le_iff, ← Int.floor_add_one]
  exact Int.floor_le_floor hab

theorem getAsLong_lt_root {block : TxBlock} (hblock : block ∈ archived) :
    block.txpow.getBlockNumber.getAsLong < tree.root.value.txpow.getBlockNumber.getAsLong := by
  rw [h.getAsLong_archived hblock, h.getAsLong_root, ← Int.add_one_le_iff, ← Int.floor_add_one]
  exact Int.floor_le_floor (h.lt_root hblock)

end Joined

/-! ## What is looked up -/

/-- No archived block has an id. -/
def NotArchived (archived : List TxBlock) (id : MiniData) : Prop :=
  ∀ block ∈ archived, block.txpow.getTxPoWID ≠ id.to0xString

/-- **The block at which the search of the archive ends**: of every twentieth id of a greeting the first
one that is archived, and the last id if none of them is. -/
def EndsSearch (archived : List TxBlock) (chain : List MiniData) (block : TxBlock) : Prop :=
  ∃ i id, chain[i]? = some id ∧ block.txpow.getTxPoWID = id.to0xString ∧
    ((20 ∣ i ∧ ∀ j < i, 20 ∣ j → ∀ id' ∈ chain[j]?, NotArchived archived id') ∨
      (i + 1 = chain.length ∧ ∀ j, 20 ∣ j → ∀ id' ∈ chain[j]?, NotArchived archived id'))

/-- What a search from the `counter`-th id on comes to. -/
def Searched (archived : List TxBlock) (counter : ℕ) (chain : List MiniData) (found : MiniNumber) : Prop :=
  (∃ i id, ∃ block ∈ archived, chain[i]? = some id ∧ block.txpow.getTxPoWID = id.to0xString ∧
    20 ∣ counter + i ∧ (∀ j < i, 20 ∣ counter + j → ∀ id' ∈ chain[j]?, NotArchived archived id') ∧
    found = .ofInt block.txpow.getBlockNumber.getAsLong) ∨
  found = .minusOne ∧ ∀ j, 20 ∣ counter + j → ∀ id' ∈ chain[j]?, NotArchived archived id'

/-- A search goes on behind an id that it passes. -/
theorem Searched.later {counter : ℕ} {current : MiniData} {chain : List MiniData} {found : MiniNumber}
    (h : Searched archived (counter + 1) chain found) (hfirst : 20 ∣ counter → NotArchived archived current) :
    Searched archived counter (current :: chain) found := by
  have hadd : ∀ j, counter + (j + 1) = counter + 1 + j := fun j => by omega
  rcases h with ⟨i, id, block, hmem, hget, hid, hdvd, hbefore, hfound⟩ | ⟨hfound, hnone⟩
  · refine .inl ⟨i + 1, id, block, hmem, hget, hid, hadd i ▸ hdvd, fun j hj hdvd id' hid' => ?_, hfound⟩
    cases j with
    | zero =>
      obtain rfl : current = id' := by simpa using hid'
      exact hfirst hdvd
    | succ j => exact hbefore j (by omega) (hadd j ▸ hdvd) id' hid'
  · refine .inr ⟨hfound, fun j hdvd id' hid' => ?_⟩
    cases j with
    | zero =>
      obtain rfl : current = id' := by simpa using hid'
      exact hfirst hdvd
    | succ j => exact hnone j (hadd j ▸ hdvd) id' hid'

section Search

variable {archive : Archive} (hholds : archive.Holds C weightText archived)
  (hnonneg : ∀ block ∈ archived, 0 ≤ block.txpow.getBlockNumber.getAsLong)
include hholds hnonneg

/-- What a lookup in the archive comes to. -/
theorem existsTxPoW_cases (id : MiniData) :
    (∃ block ∈ archived, block.txpow.getTxPoWID = id.to0xString ∧
      archive.existsTxPoW id.to0xString = .ofInt block.txpow.getBlockNumber.getAsLong ∧
      (archive.existsTxPoW id.to0xString).isEqual .minusOne = false) ∨
    (archive.existsTxPoW id.to0xString).isEqual .minusOne = true ∧ NotArchived archived id := by
  rcases Archive.existsTxPoW_of_holds hholds id.to0xString with ⟨block, hmem, hid, hexists⟩ | ⟨hexists, hnot⟩
  · left
    refine ⟨block, hmem, hid, hexists, ?_⟩
    rw [hexists]
    exact MiniNumber.isEqual_minusOne_ofInt (hnonneg block hmem)
  · right
    refine ⟨?_, hnot⟩
    rw [hexists]
    decide

/-- The search of the archive from the `counter`-th id on. -/
theorem searchArchive_searched (chain : List MiniData) (counter : ℕ) :
    Searched archived counter chain (searchArchive archive counter chain) := by
  induction chain generalizing counter with
  | nil => exact .inr ⟨rfl, by simp⟩
  | cons current chain ih =>
    rw [searchArchive]
    split_ifs with hcounter
    · rcases existsTxPoW_cases hholds hnonneg current with ⟨block, hmem, hid, hexists, hne⟩ | ⟨heq, hnot⟩
      · left
        refine ⟨0, current, block, hmem, rfl, hid, Nat.dvd_of_mod_eq_zero hcounter, by simp, ?_⟩
        simp only [hne, Bool.false_eq_true, if_false]
        exact hexists
      · simp only [heq, if_true]
        exact (ih (counter + 1)).later fun _ => hnot
    · exact (ih (counter + 1)).later fun hdvd => absurd (Nat.mod_eq_zero_of_dvd hdvd) hcounter

/-- **The search ends at a block that is archived, or finds none.** -/
theorem findArchived_cases (chain : List MiniData) :
    (∃ block ∈ archived, EndsSearch archived chain block ∧
      findArchived archive chain = .ofInt block.txpow.getBlockNumber.getAsLong ∧
      (findArchived archive chain).isEqual .minusOne = false) ∨
    (findArchived archive chain).isEqual .minusOne = true ∧
      ∀ block ∈ archived, ¬ EndsSearch archived chain block := by
  unfold findArchived
  rcases searchArchive_searched hholds hnonneg chain 0 with
    ⟨i, id, block, hmem, hget, hid, hdvd, hbefore, hfound⟩ | ⟨hfound, hnone⟩
  · left
    simp only [Nat.zero_add] at hdvd hbefore
    have hne := MiniNumber.isEqual_minusOne_ofInt (hnonneg block hmem)
    refine ⟨block, hmem, ⟨i, id, hget, hid, .inl ⟨hdvd, hbefore⟩⟩, ?_⟩
    simp only [hfound, hne, Bool.false_eq_true, if_false, and_self]
  · simp only [Nat.zero_add] at hnone
    have heq : MiniNumber.minusOne.isEqual .minusOne = true := by decide
    simp only [hfound, heq, if_true]
    cases hlast : chain.getLast? with
    | none =>
      right
      rw [List.getLast?_eq_none_iff] at hlast
      subst hlast
      refine ⟨heq, fun block _ hends => ?_⟩
      obtain ⟨i, id, hget, -⟩ := hends
      simp at hget
    | some last =>
      rw [List.getLast?_eq_getElem?] at hlast
      rcases existsTxPoW_cases hholds hnonneg last with ⟨block, hmem, hid, hexists, hne⟩ | ⟨heq', hnot⟩
      · left
        refine ⟨block, hmem, ⟨chain.length - 1, last, hlast, hid, .inr ⟨?_, hnone⟩⟩, hexists, hne⟩
        have hlt := (List.getElem?_eq_some_iff.mp hlast).1
        omega
      · right
        refine ⟨heq', fun block hmem hends => ?_⟩
        obtain ⟨i, id, hget, hid, hcase⟩ := hends
        rcases hcase with ⟨hdvd, -⟩ | ⟨hi, -⟩
        · exact hnone i hdvd id hget block hmem hid
        · rw [← hi, Nat.add_sub_cancel, hget, Option.some.injEq] at hlast
          exact hnot block hmem (hlast ▸ hid)

end Search

/-- The first id of a greeting that a block of the main chain has. -/
theorem findOverlap_cases (tree : TipTree) (chain : List MiniData) :
    (∃ (i : ℕ) (id : MiniData) (pre : List TxBlock) (block : TxBlock) (post : List TxBlock),
      chain[i]? = some id ∧ block.txpow.getTxPoWID = id.to0xString ∧
      (∀ j < i, ∀ id' ∈ chain[j]?, NotArchived tree.mainChain id') ∧
      tree.mainChain = pre ++ block :: post ∧ findOverlap tree chain = some id.to0xString ∧
      blocksAfter tree id.to0xString = pre.reverse) ∨
    findOverlap tree chain = none ∧ ∀ id ∈ chain, NotArchived tree.mainChain id := by
  have hcontains : ∀ id : MiniData,
      (tree.mainChain.map fun b => b.txpow.getTxPoWID).contains id.to0xString = false ↔
        NotArchived tree.mainChain id := by
    intro id
    rw [List.contains_eq_mem, decide_eq_false_iff_not, List.mem_map]
    exact ⟨fun hnot block hmem heq => hnot ⟨block, hmem, heq⟩, fun hnot ⟨block, hmem, heq⟩ => hnot block hmem heq⟩
  unfold findOverlap
  rw [List.find?_map]
  cases hfind : chain.find? ((fun block => (tree.mainChain.map fun b => b.txpow.getTxPoWID).contains block) ∘
      MiniData.to0xString) with
  | none =>
    refine .inr ⟨rfl, fun id hid => (hcontains id).mp ?_⟩
    exact Bool.eq_false_iff.mpr (List.find?_eq_none.mp hfind id hid)
  | some id =>
    left
    obtain ⟨hfound, i, hi, hget, hbefore⟩ := List.find?_eq_some_iff_getElem.mp hfind
    rw [Function.comp_apply, List.contains_iff_mem] at hfound
    -- the walk from the tip stops at the first block with the id
    have hhas : ∃ b ∈ tree.mainChain, (b.txpow.getTxPoWID == id.to0xString) = true := by
      obtain ⟨b, hb, heq⟩ := List.mem_map.mp hfound
      exact ⟨b, hb, beq_iff_eq.mpr heq⟩
    obtain ⟨block, hblock⟩ := Option.isSome_iff_exists.mp (List.find?_isSome.mpr hhas)
    obtain ⟨hid, pre, post, hsplit, hpre⟩ := List.find?_eq_some_iff_append.mp hblock
    refine ⟨i, id, pre, block, post, by rw [List.getElem?_eq_getElem hi, hget], beq_iff_eq.mp hid,
      fun j hj id' hid' => ?_, hsplit, rfl, ?_⟩
    · obtain ⟨hjlt, rfl⟩ := List.getElem?_eq_some_iff.mp hid'
      exact (hcontains _).mp (by simpa using hbefore j hj)
    · unfold blocksAfter
      rw [hsplit, List.takeWhile_append_of_pos fun b hb => by simpa [bne] using hpre b hb,
        List.takeWhile_cons_of_neg (by simpa [bne] using hid), List.append_nil]

/-! ## Answers -/

section Answers

variable (C weightText) (levelNodes : ℕ) (node) (tree) (archived) (zGreeting : Greeting)
  (greettip greetroot : MiniNumber)

/-- **Why a complete download is sent**: the peer has nothing; or it is behind the root, and no looked-up
id is archived or the block found is more than 34000 blocks back; or it is ahead, or on another chain. -/
def NeedsComplete : Prop :=
  greettip.toRat = -1 ∨
  (greettip.toRat < tree.root.value.txpow.getBlockNumber.toRat ∧
    ((∀ block ∈ archived, ¬ EndsSearch archived zGreeting.chain block) ∨
      ∃ block ∈ archived, EndsSearch archived zGreeting.chain block ∧
        34000 < tree.root.value.txpow.getBlockNumber.toRat - ⌊block.txpow.getBlockNumber.toRat⌋)) ∨
  (tree.root.value.txpow.getBlockNumber.toRat ≤ greettip.toRat ∧
    (tree.tip.tree.value.txpow.getBlockNumber.toRat < greetroot.toRat ∨
      ∀ id ∈ zGreeting.chain, NotArchived tree.mainChain id))

/-- **Where an answer starts**: at the root of the tree, behind a copy of the cascade; or right behind
the block at which the search of the archive ends; or right behind the first block of the greeting that
is on the main chain. -/
inductive Starts : IBD → Prop
  | complete {cascade : Cascade} (copied : node.cascade.deepCopy C weightText levelNodes = .ok cascade)
      (why : NeedsComplete tree archived zGreeting greettip greetroot) : Starts ⟨some cascade, tree.mainBlocks⟩
  | archived {block : TxBlock} {blocks : List TxBlock}
      (behind : greettip.toRat < tree.root.value.txpow.getBlockNumber.toRat) (mem : block ∈ archived)
      (ends : EndsSearch archived zGreeting.chain block)
      (follows : block :: blocks <:+ archived ++ tree.mainBlocks) : Starts ⟨none, blocks⟩
  | overlap {block : TxBlock} {blocks : List TxBlock} {i : ℕ} {id : MiniData}
      (overlaps : tree.root.value.txpow.getBlockNumber.toRat ≤ greettip.toRat)
      (mem : block ∈ tree.mainBlocks) (get : zGreeting.chain[i]? = some id)
      (same : block.txpow.getTxPoWID = id.to0xString)
      (first : ∀ j < i, ∀ id' ∈ zGreeting.chain[j]?, NotArchived tree.mainBlocks id')
      (follows : block :: blocks <:+ archived ++ tree.mainBlocks) : Starts ⟨none, blocks⟩

/-- **An answer that is a contiguous piece of the chain**: every block is the one behind the block before
it, none is sent twice, and it goes on to the tip. -/
structure Contiguous (ibd : IBD) : Prop where
  linked : ibd.txBlocks.IsChain Precedes
  nodup : ibd.txBlocks.Nodup
  toTip : ibd.txBlocks <:+ archived ++ tree.mainBlocks
  starts : Starts C weightText node tree archived levelNodes zGreeting greettip greetroot ibd

/-- **What an answer comes to**: a contiguous piece of the chain; or nothing, because the number of the
peer's tip or of its root is out of range, or the cascade cannot be copied. -/
inductive Answered : Result (Bool × IBD) → Prop
  | sent {isvalid : Bool} {ibd : IBD} {greettip greetroot : MiniNumber}
      (top : zGreeting.topBlock.copy = .ok greettip) (root : zGreeting.getRootBlock = .ok greetroot)
      (contiguous : Contiguous C weightText node tree archived levelNodes zGreeting greettip greetroot ibd) :
      Answered (.ok (isvalid, ibd))
  | failed {isvalid : Bool} {e : Fault}
      (why : zGreeting.topBlock.copy = .error e ∨ zGreeting.getRootBlock = .error e ∨
        node.cascade.deepCopy C weightText levelNodes = .error e) : Answered (caught isvalid (.error e))

end Answers

section Contiguous

variable {levelNodes : ℕ} {zGreeting : Greeting} {greettip greetroot : MiniNumber}

/-- An answer that goes on to the tip is contiguous. -/
theorem Joined.contiguous (h : node.Joined C weightText tree archived) {ibd : IBD}
    (hto : ibd.txBlocks <:+ archived ++ tree.mainBlocks)
    (hstarts : Starts C weightText node tree archived levelNodes zGreeting greettip greetroot ibd) :
    Contiguous C weightText node tree archived levelNodes zGreeting greettip greetroot ibd where
  linked := h.linked.suffix hto
  nodup := h.ascending.nodup.sublist hto.sublist
  toTip := hto
  starts := hstarts

/-- **The answer to a peer behind the root**: the archived blocks behind the one that was found, and the
tree; or a complete download. -/
theorem createArchivedIBD_cases (h : node.Joined C weightText tree archived) (levelNodes : ℕ)
    (zGreeting : Greeting) :
    (∃ before block after, archived = before ++ block :: after ∧ EndsSearch archived zGreeting.chain block ∧
      node.createArchivedIBD C weightText levelNodes tree zGreeting = .ok ⟨none, after ++ tree.mainBlocks⟩) ∨
    node.createArchivedIBD C weightText levelNodes tree zGreeting =
        node.createCompleteIBD C weightText levelNodes ∧
      ((∀ block ∈ archived, ¬ EndsSearch archived zGreeting.chain block) ∨
        ∃ block ∈ archived, EndsSearch archived zGreeting.chain block ∧
          34000 < tree.root.value.txpow.getBlockNumber.toRat - ⌊block.txpow.getBlockNumber.toRat⌋) := by
  have hnonneg : ∀ block ∈ archived, 0 ≤ block.txpow.getBlockNumber.getAsLong := by
    intro block hmem
    rw [h.getAsLong_archived hmem]
    exact Int.floor_nonneg.mpr (h.nonneg (List.mem_append_left _ hmem))
  unfold createArchivedIBD
  rcases findArchived_cases h.holds hnonneg zGreeting.chain with ⟨block, hmem, hends, hfound, hne⟩ | ⟨heq, hnone⟩
  · have hrow := h.getAsLong_archived hmem
    have hbelow := h.lt_root hmem
    have hroot := h.root
    have hzero := h.nonneg (List.mem_append_left _ hmem)
    have hfloor : (⌊block.txpow.getBlockNumber.toRat⌋ : ℚ) ≤ block.txpow.getBlockNumber.toRat := Int.floor_le _
    have hfloor0 : (0 : ℚ) ≤ ⌊block.txpow.getBlockNumber.toRat⌋ := by
      exact_mod_cast Int.floor_nonneg.mpr hzero
    rw [hrow] at hfound
    -- the difference is in range, and the comparison with it never errs upwards
    have hpositive : (0 : ℚ) ≤ tree.root.value.txpow.getBlockNumber.toRat - ⌊block.txpow.getBlockNumber.toRat⌋ := by
      linarith
    obtain ⟨total, htotal⟩ := MiniNumber.exists_sub_eq_ok (a := tree.root.value.txpow.getBlockNumber)
      (b := .ofInt ⌊block.txpow.getBlockNumber.toRat⌋) (by
        rw [MiniNumber.toRat_ofInt, abs_of_nonneg hpositive]
        norm_num [MiniNumber.maxValue]
        linarith)
    have habs := MiniNumber.abs_sub_le htotal
    rw [MiniNumber.toRat_ofInt, abs_of_nonneg hpositive] at habs
    simp only [hfound ▸ hne, hfound, Bool.false_eq_true, if_false, htotal, Result.ok_bind]
    split_ifs with hbig
    · refine .inr ⟨rfl, .inr ⟨block, hmem, hends, ?_⟩⟩
      rw [maxBlocksForIBD, MiniNumber.isMore_iff, MiniNumber.toRat_ofInt] at hbig
      exact lt_of_lt_of_le (by exact_mod_cast hbig) ((le_abs_self _).trans habs)
    · obtain ⟨before, after, hsplit⟩ := List.append_of_mem hmem
      refine .inl ⟨before, block, after, hsplit, hends, ?_⟩
      have hlong : (MiniNumber.ofInt ⌊block.txpow.getBlockNumber.toRat⌋).getAsLong =
          block.txpow.getBlockNumber.getAsLong := by
        rw [hrow]
        refine MiniNumber.getAsLong_ofInt (by exact_mod_cast hfloor0) ?_
        have hlt : (⌊block.txpow.getBlockNumber.toRat⌋ : ℚ) < 2 ^ 63 := by linarith
        exact_mod_cast hlt
      have hascending := h.ascending_getAsLong
      have hafter : Ascending (fun b : TxBlock => b.txpow.getBlockNumber.toRat) after := by
        have hall := h.ascending
        rw [hsplit, List.append_assoc, List.cons_append] at hall
        exact (List.pairwise_append.mp (List.pairwise_cons.mp hall.of_append.2.1).2).1
      have hrange : (archived.filter fun b =>
          (MiniNumber.ofInt ⌊block.txpow.getBlockNumber.toRat⌋).getAsLong < b.txpow.getBlockNumber.getAsLong ∧
            b.txpow.getBlockNumber.getAsLong < tree.root.value.txpow.getBlockNumber.getAsLong) = after := by
        rw [hlong, hsplit]
        exact filter_between (hsplit ▸ hascending) fun b hb => h.getAsLong_lt_root (hsplit ▸ hb)
      rw [Archive.loadBlockRange_of_holds h.holds hrange hafter true, Result.ok_bind, if_pos rfl,
        List.reverse_reverse]
      rfl
  · simp only [heq, if_true]
    exact .inr ⟨trivial, .inl hnone⟩

/-- A complete download is the whole tree behind a copy of the cascade, if there is one. -/
theorem answered_complete (levelNodes : ℕ) (h : node.Joined C weightText tree archived)
    (htop : zGreeting.topBlock.copy = .ok greettip) (hroot : zGreeting.getRootBlock = .ok greetroot)
    (hwhy : NeedsComplete tree archived zGreeting greettip greetroot) (isvalid : Bool) :
    Answered C weightText node tree archived levelNodes zGreeting
      (caught isvalid (node.createCompleteIBD C weightText levelNodes)) := by
  unfold createCompleteIBD
  cases hcopy : node.cascade.deepCopy C weightText levelNodes with
  | error e => exact .failed (.inr (.inr hcopy))
  | ok cascade =>
    rw [Result.ok_bind, h.tree_eq]
    exact .sent htop hroot (h.contiguous (List.suffix_append _ _) (.complete hcopy hwhy))

/-- **Every answer is a contiguous piece of the chain up to the tip**, from the root of the tree or from
right behind the block that the greeting leads to, or it is empty after an exception. -/
theorem createIBD_contiguous (h : node.Joined C weightText tree archived) (levelNodes : ℕ)
    (zGreeting : Greeting) :
    Answered C weightText node tree archived levelNodes zGreeting
      (node.createIBD C weightText levelNodes zGreeting) := by
  unfold createIBD
  rw [h.tree_eq]
  dsimp only
  cases htop : zGreeting.topBlock.copy with
  | error e => exact .failed (.inl htop)
  | ok greettip =>
    cases hroot : zGreeting.getRootBlock with
    | error e => exact .failed (.inr (.inl hroot))
    | ok greetroot =>
      have hcomplete := answered_complete levelNodes h htop hroot
      dsimp only
      split_ifs with hfresh hbehind hahead
      · rw [MiniNumber.isEqual_iff, MiniNumber.minusOne, MiniNumber.toRat_ofInt] at hfresh
        exact hcomplete (.inl (by simpa using hfresh)) true
      · rw [MiniNumber.isLess_iff] at hbehind
        rcases createArchivedIBD_cases h levelNodes zGreeting with
          ⟨before, block, after, hsplit, hends, hibd⟩ | ⟨hibd, hwhy⟩
        · rw [hibd]
          have hfollows : block :: (after ++ tree.mainBlocks) <:+ archived ++ tree.mainBlocks :=
            ⟨before, by rw [hsplit]; simp⟩
          exact .sent htop hroot (h.contiguous ((List.suffix_cons _ _).trans hfollows)
            (.archived hbehind (by simp [hsplit]) hends hfollows))
        · rw [hibd]
          exact hcomplete (.inr (.inl ⟨hbehind, hwhy⟩)) true
      · rw [MiniNumber.isLess_iff, not_lt] at hbehind
        rw [MiniNumber.isMore_iff] at hahead
        exact hcomplete (.inr (.inr ⟨hbehind, .inl hahead⟩)) true
      · rw [MiniNumber.isLess_iff, not_lt] at hbehind
        rcases findOverlap_cases tree zGreeting.chain with
          ⟨i, id, pre, block, post, hget, hsame, hfirst, hsplit, hfound, hafter⟩ | ⟨hfound, hnone⟩
        · rw [hfound]
          dsimp only
          rw [hafter]
          have hfollows : block :: pre.reverse <:+ archived ++ tree.mainBlocks :=
            ⟨archived ++ post.reverse, by rw [TipTree.mainBlocks, hsplit]; simp⟩
          refine .sent htop hroot (h.contiguous ((List.suffix_cons _ _).trans hfollows)
            (.overlap hbehind ?_ hget hsame (fun j hj id' hid' b hb => ?_) hfollows))
          · rw [TipTree.mainBlocks, hsplit]
            simp
          · exact hfirst j hj id' hid' b (List.mem_reverse.mp hb)
        · rw [hfound]
          exact hcomplete (.inr (.inr ⟨hbehind, .inr hnone⟩)) false

end Contiguous

/-! ### Nothing of the tree for its root -/

/-- **A request for the root of the tree is never answered with the tree**: whatever the archive gives,
the loop over the blocks of the tree faults, and before it there is at most an exception. -/
theorem createArchiveIBD_root (C : Crypto) (weightText : ℕ → Text) (htree : node.tree = some tree)
    (shuttingDown : Bool) (savedCascade : Option Cascade) {zFirstBlock : MiniNumber}
    (hroot : zFirstBlock.toRat = tree.root.value.txpow.getBlockNumber.toRat) {ibd : IBD}
    (hibd : node.createArchiveIBD C weightText shuttingDown savedCascade zFirstBlock false = .ok ibd) :
    ibd.txBlocks = [] := by
  have hadd : ∀ ibd, node.addMainTree zFirstBlock ibd = undefinedBehaviour "null tip" := by
    intro ibd
    obtain ⟨blocks, hblocks⟩ := tree.exists_mainBlocks_eq_cons
    unfold addMainTree
    rw [htree]
    dsimp only
    have hnot : (tree.root.value.txpow.getBlockNumber.isEqual .one && zFirstBlock.isEqual .zero) = false := by
      rw [Bool.and_eq_false_iff]
      by_contra hboth
      push Not at hboth
      simp only [ne_eq, Bool.not_eq_false, MiniNumber.isEqual_iff, MiniNumber.toRat_one,
        MiniNumber.toRat_zero] at hboth
      linarith [hboth.1, hboth.2, hroot]
    simp only [hnot, Bool.false_eq_true, if_false]
    rw [if_pos ((MiniNumber.isEqual_iff _ _).mpr hroot.symm), hblocks]
    rfl
  unfold createArchiveIBD at hibd
  by_cases hdown : shuttingDown = true
  · rw [if_pos hdown] at hibd
    cases hibd
    rfl
  · rw [if_neg hdown] at hibd
    split at hibd
    · cases hibd
      rfl
    · cases hibd
    · dsimp only at hibd
      split at hibd
      · cases hibd
        rfl
      · cases hibd
      · simp only [Bool.false_eq_true, if_false, hadd] at hibd
        cases hibd

/-! ## A peer on a fork -/

section Sample

open TxPowTree

/-- A block on another one. -/
def blockOn (parent : MiniData) (number : ℕ) (time : StoredNumber) (h : number < 10 ^ 64 := by decide) :
    TxBlock := ⟨sampleTxPoW (headerOn parent number time h), [], [], []⟩

theorem blockOn_spec (parent : MiniData) (hparent : parent.getLength ≤ MiniData.maxHashLength) (number : ℕ)
    (time : StoredNumber) (h : number < 10 ^ 64) :
    ((blockOn parent number time h).Wire sumHash evenWeight ∧ (blockOn parent number time h).Held) ∧
      (blockOn parent number time h).txpow.getParentID = .ok parent ∧
      (blockOn parent number time h).txpow.getBlockNumber = .ofInt number := by
  obtain ⟨hwire, hheader, hbody⟩ := wire_sampleTxPoW (wire_headerOn hparent number time h)
  refine ⟨⟨⟨hwire, ?_, ?_, ?_, ?_, ?_, ?_⟩, ⟨?_, ?_, ?_⟩⟩, ?_, ?_⟩
  any_goals simp [blockOn]
  · unfold TxPoW.Held
    rw [hbody]
    simp
  · rw [TxPoW.getParentID, TxPoW.getSuperParent, hheader]
    rfl
  · rw [TxPoW.getBlockNumber, hheader]
    rfl

def firstBlock : TxBlock := blockOn MiniData.zeroTxPowID 1 TxPoW.oneStored TxPoW.one_lt_limit

def secondBlock : TxBlock :=
  blockOn firstBlock.txpow.txPoWID 2 TxPoW.oneStored TxPoW.two_lt_limit

def thirdBlock : TxBlock :=
  blockOn secondBlock.txpow.txPoWID 3 TxPoW.oneStored TxPoW.three_lt_limit

def fourthBlock : TxBlock :=
  blockOn thirdBlock.txpow.txPoWID 4 TxPoW.oneStored TxPoW.four_lt_limit

/-- A block beside the third one. -/
def forkBlock : TxBlock :=
  blockOn secondBlock.txpow.txPoWID 3 Transaction.sampleTen TxPoW.three_lt_limit

/-- A node with three blocks in its archive, and one in its tree. -/
def archiveNode : SyncSource where
  tree := some ⟨.node fourthBlock [], ⟨[], .node fourthBlock []⟩, rfl⟩
  cascade := .empty
  archive := .ofBlocks [firstBlock, secondBlock, thirdBlock] (by decide +kernel) (by decide +kernel)

/-- A peer with another third block. -/
def forkPeer : SyncSource where
  tree := some ⟨.node firstBlock [.node secondBlock [.node forkBlock []]],
    ⟨[0, 0], .node forkBlock []⟩, rfl⟩
  cascade := .empty
  archive := .empty

/-- The four blocks are a chain that the archive and the tree of the node hold. -/
theorem joined_archiveNode : archiveNode.Joined sumHash evenWeight
    ⟨.node fourthBlock [], ⟨[], .node fourthBlock []⟩, rfl⟩ [firstBlock, secondBlock, thirdBlock] := by
  obtain ⟨hgood1, -, hnumber1⟩ :=
    blockOn_spec MiniData.zeroTxPowID (by decide) 1 TxPoW.oneStored (by decide)
  obtain ⟨hgood2, hparent2, hnumber2⟩ :=
    blockOn_spec firstBlock.txpow.txPoWID (by decide +kernel) 2 TxPoW.oneStored (by decide)
  obtain ⟨hgood3, hparent3, hnumber3⟩ :=
    blockOn_spec secondBlock.txpow.txPoWID (by decide +kernel) 3 TxPoW.oneStored (by decide)
  obtain ⟨-, hparent4, hnumber4⟩ :=
    blockOn_spec thirdBlock.txpow.txPoWID (by decide +kernel) 4 TxPoW.oneStored (by decide)
  refine ⟨rfl, Archive.holds_ofBlocks ?_ (by decide +kernel) (by decide +kernel), ?_, ?_, ?_⟩
  · intro b hb
    simp only [List.mem_cons, List.not_mem_nil, or_false] at hb
    rcases hb with rfl | rfl | rfl
    · exact hgood1
    · exact hgood2
    · exact hgood3
  · show List.IsChain Precedes [firstBlock, secondBlock, thirdBlock, fourthBlock]
    simp only [List.isChain_cons_cons, List.isChain_singleton, and_true]
    refine ⟨⟨hparent2, ?_⟩, ⟨hparent3, ?_⟩, hparent4, ?_⟩
    · rw [show secondBlock.txpow.getBlockNumber = _ from hnumber2,
        show firstBlock.txpow.getBlockNumber = _ from hnumber1]
      norm_num
    · rw [show thirdBlock.txpow.getBlockNumber = _ from hnumber3,
        show secondBlock.txpow.getBlockNumber = _ from hnumber2]
      norm_num
    · rw [show fourthBlock.txpow.getBlockNumber = _ from hnumber4,
        show thirdBlock.txpow.getBlockNumber = _ from hnumber3]
      norm_num
  · rintro block ⟨⟩
    rw [show firstBlock.txpow.getBlockNumber = _ from hnumber1]
    norm_num
  · show fourthBlock.txpow.getBlockNumber.toRat < 2 ^ 63
    rw [show fourthBlock.txpow.getBlockNumber = _ from hnumber4]
    norm_num

/-- The node answers the peer with a contiguous piece of its chain. -/
theorem createIBD_contiguous_forkPeer : Answered sumHash evenWeight archiveNode
    ⟨.node fourthBlock [], ⟨[], .node fourthBlock []⟩, rfl⟩ [firstBlock, secondBlock, thirdBlock] 256
    forkPeer.greeting (archiveNode.createIBD sumHash evenWeight 256 forkPeer.greeting) :=
  createIBD_contiguous joined_archiveNode 256 forkPeer.greeting

/-- The last two blocks with a number that fits in the column of the archive. -/
def lastBlock : TxBlock := blockOn MiniData.zeroTxPowID (2 ^ 63 - 1) TxPoW.oneStored

def beforeLastBlock : TxBlock := blockOn MiniData.zeroTxPowID (2 ^ 63 - 2) TxPoW.oneStored

/-- The first block with a number that does not. -/
def overflowBlock : TxBlock := blockOn lastBlock.txpow.txPoWID (2 ^ 63) TxPoW.oneStored

def overflowNode : SyncSource where
  tree := some ⟨.node overflowBlock [], ⟨[], .node overflowBlock []⟩, rfl⟩
  cascade := .empty
  archive := .ofBlocks [beforeLastBlock, lastBlock] (by decide +kernel) (by decide +kernel)

/-- The ids of the blocks of an answer. -/
def sentIDs (answer : Result (Bool × IBD)) : Result (List MiniData) :=
  answer.map fun out => out.2.txBlocks.map fun b => b.txpow.txPoWID

theorem eq_error_of_map {α β : Type} {f : α → β} {x : Result α} {e : Fault} (h : x.map f = .error e) :
    x = .error e := by
  cases x with
  | ok a => cases h
  | error e' => exact congrArg Except.error (Except.error.inj h)

/-- **Answers that are not what they should be.** A peer behind the root whose tip is on a fork is sent
the second block, which it has; a tip number out of range leaves the answer empty; behind a root with the
number `2 ^ 63` the last archived block is missing; and a request for the root of the tree reads through the
null tip. -/
theorem not_createIBD_contiguous :
    (sentIDs (archiveNode.createIBD sumHash evenWeight 256 forkPeer.greeting) =
        .ok [secondBlock.txpow.txPoWID, thirdBlock.txpow.txPoWID, fourthBlock.txpow.txPoWID] ∧
      secondBlock.txpow.txPoWID ∈ forkPeer.greeting.chain) ∧
    sentIDs (archiveNode.createIBD sumHash evenWeight 256 ⟨⟨1, -128⟩, []⟩) = .ok [] ∧
    (sentIDs (overflowNode.createIBD sumHash evenWeight 256
        ⟨.ofInt (2 ^ 63 - 2), [beforeLastBlock.txpow.txPoWID]⟩) = .ok [overflowBlock.txpow.txPoWID] ∧
      overflowBlock.txpow.getParentID ≠ .ok beforeLastBlock.txpow.txPoWID) ∧
    archiveNode.createArchiveIBD sumHash evenWeight false none fourthBlock.txpow.getBlockNumber false =
      undefinedBehaviour "null tip" :=
  ⟨by decide +kernel, by decide +kernel, by decide +kernel,
    eq_error_of_map (f := fun ibd => ibd.txBlocks.length) (by decide +kernel)⟩

end Sample

end SyncSource

end Minima
