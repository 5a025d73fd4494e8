import Minima.Brains.SyncBlocks
import Minima.Objects.IBD

/-! # `MSG_IBD` and `PROCESS_IBD`: a download from the network into the tree

The handler of `MSG_IBD` sets the sync flag of the node, reads and checks the download and posts it to
the processor. `PROCESS_IBD` may take over its cascade, puts its blocks on the tree, and clears the flag
on two of its ways out.

* **`NIOMessage.msgIBD`** — both handlers, one after the other.
* **`msgIBD_clears_iff`** — the flag is cleared exactly when nothing refuses the download or throws
  before the blocks are processed.
* **`msgIBD_grows`** — a node with a cascade and a tree only ever grows its own. -/

namespace Minima

open RoseTree

/-- `abs`. -/
def MiniNumber.abs (a : MiniNumber) : Result MiniNumber :=
  MiniNumber.checkLimits (MiniNumber.applyMathContextDefault { a with unscaled := |a.unscaled| })

/-- The flag of `Main`, and the chain of the node. -/
structure MainState where
  isSyncIBD : Bool
  node : SyncNode

/-- **What the two handlers depend on besides the message:** whether the node restores when the download
is posted and shuts down when it is processed, its parameters, the time since its start, and now, in
milliseconds. Other threads set both flags: `restoring` is what `postProcessIBD` finds, and may be set though
`run` found it clear. -/
structure IBDEnv extends SyncEnv where
  restoring : Bool
  shuttingDown : Bool
  txBlockNode : Bool
  testParams : Bool
  diff : ℤ
  timenow : ℤ

namespace TxPoWProcessor

section ProcessIBD

variable (C : Crypto) (weightText : ℕ → Text) (env : IBDEnv)

/-- `setIBDCascade` with a copy of the cascade; what the copy throws is logged. -/
def setIBDCascade (node : SyncNode) (cascade : Cascade) : Result SyncNode :=
  match cascade.deepCopy C weightText env.params.levelNodes with
  | .ok copy => .ok { node with stores := { node.stores with cascade := copy } }
  | .error (.exception _) => .ok node
  | .error (.undefined what) => undefinedBehaviour what

/-- The cascade of a download: a node without one takes it over when its tip is the parent of the root,
or when there is no tree. -/
def adoptCascade (node : SyncNode) (ibd : IBD) : Result SyncNode :=
  match ibd.cascade, node.stores.cascade.getTip with
  | some cascade, none =>
    match node.root with
    | none => setIBDCascade C weightText env node cascade
    | some root =>
      match cascade.getTip with
      | none => undefinedBehaviour "null CascadeNode"
      | some casctip => do
        let before ← root.value.getBlockNumber.decrement
        if !casctip.txpow.getBlockNumber.isEqual before then return node
        let rootparent ← root.value.getParentID
        if !rootparent.isEqual casctip.txpow.txPoWID then return node
        setIBDCascade C weightText env node cascade
  -- already a cascade: the incoming one is ignored
  | _, _ => .ok node

/-- `MAX_FIRST_IBD_TIME`: five minutes. -/
def maxFirstIBDTime : ℤ := 1000 * 60 * 5

/-- A tip that is younger than three hours, or five minutes with test parameters, takes no blocks once
the node has been up for five minutes. -/
def isUpToDate (node : SyncNode) (ibd : IBD) : Result Bool :=
  if maxFirstIBDTime < env.diff ∧ env.txBlockNode = false then
    match node.tip, ibd.txBlocks with
    | some tip, _ :: _ => do
      let tdiff ← tip.getTxPoW.getTimeMilli.sub (.ofInt env.timenow)
      let tdiff ← tdiff.abs
      return tdiff.isLess (.ofInt (if env.testParams then 1000 * 60 * 5 else 1000 * 60 * 180))
    | _, _ => return false
  else return false

/-- What an outer `catch` makes of a fault: an exception is logged. -/
def caught : Fault → Result Unit
  | .exception _ => .ok ()
  | .undefined what => undefinedBehaviour what

/-- **`PROCESS_IBD`**: the state that it leaves, and the undefined behaviour that it runs into. -/
def processIBD (main : MainState) (ibd : IBD) : MainState × Result Unit :=
  if env.shuttingDown then (main, .ok ())
  else match ibd.checkValidData with
  | .error e => (main, caught e)
  | .ok false => (main, .ok ())
  | .ok true =>
    match adoptCascade C weightText env main.node ibd with
    | .error e => ({ main with isSyncIBD := true }, caught e)
    | .ok adopted =>
      match isUpToDate env adopted ibd with
      | .error e => (⟨true, adopted⟩, caught e)
      -- only full TxPoW are accepted
      | .ok true => (⟨false, adopted⟩, .ok ())
      | .ok false =>
        match (SyncNode.syncBlocks C env.toSyncEnv 0 0 adopted ibd.txBlocks).2 with
        | (synced, .error e) => (⟨true, synced⟩, .error e)
        | (synced, .ok _) => (⟨false, synced.recalculateTree env.toSyncEnv⟩, .ok ())

end ProcessIBD

end TxPoWProcessor

namespace NIOMessage

open TxPoWProcessor SyncNode

section Handler

variable (C : Crypto) (weightText : ℕ → Text) (env : IBDEnv)

/-- The node's own chain, as `createCompleteIBD` collects it. -/
def ownChain (node : SyncNode) : Result IBD.Chain := do
  let cascade ← node.stores.cascade.deepCopy C weightText env.params.levelNodes
  let txpows := match node.root, node.tip with
    | some t, some tip => (txpows (t.lineage tip)).reverse
    | _, _ => []
  return ⟨some cascade, txpows⟩

/-- The contest of the two chains, which a node that syncs leaves out: whether the download is refused. -/
def refuses (main : MainState) (ibd : IBD) : Result Bool :=
  if 0 < main.node.stores.cascade.getLength ∧ ibd.hasCascadeWithBlocks = true ∧ main.isSyncIBD = false then do
    let current ← ownChain C weightText env main.node
    let heavier ← IBD.checkOurChainHeavier env.params.levelNodes current ibd.chain
    return !heavier
  else return false

/-- `postProcessIBD`, and then the processor. -/
def postProcessIBD (main : MainState) (ibd : IBD) : MainState × Result Unit :=
  if env.restoring then (main, .ok ()) else processIBD C weightText env main ibd

/-- **`MSG_IBD`** with the bytes behind the type of the message, and the handling of what it posts. `run` has
returned before where it finds the node shutting down or restoring. -/
def msgIBD (main : MainState) (dis : List Byte) : MainState × Result Unit :=
  let main := { main with isSyncIBD := true }
  match (IBD.readDataStream C weightText env.params.levelNodes dis).1 with
  | .error e => (main, caught e)
  | .ok ibd =>
    match ibd.checkValidData with
    | .error e => (main, caught e)
    | .ok false => (main, .ok ())
    | .ok true =>
      match refuses C weightText env main ibd with
      | .error e => (main, caught e)
      | .ok true => (main, .ok ())
      | .ok false => postProcessIBD C weightText env main ibd

/-! ## The flag -/

/-- **What leaves the flag set:** the download cannot be read or checked, it is not valid, it comes while
the node restores or shuts down, or taking over its cascade or comparing the time of the tip throws. -/
inductive Sticks (node : SyncNode) (dis : List Byte) : Prop
  | undecodable (h : Throws (IBD.readDataStream C weightText env.params.levelNodes dis).1)
  | unchecked {ibd : IBD} (read : (IBD.readDataStream C weightText env.params.levelNodes dis).1 = .ok ibd)
      (h : Throws ibd.checkValidData)
  | invalid {ibd : IBD} (read : (IBD.readDataStream C weightText env.params.levelNodes dis).1 = .ok ibd)
      (h : ibd.checkValidData = .ok false)
  | dropped {ibd : IBD} (read : (IBD.readDataStream C weightText env.params.levelNodes dis).1 = .ok ibd)
      (valid : ibd.checkValidData = .ok true) (h : env.restoring = true ∨ env.shuttingDown = true)
  | cascade {ibd : IBD} (read : (IBD.readDataStream C weightText env.params.levelNodes dis).1 = .ok ibd)
      (valid : ibd.checkValidData = .ok true) (h : Throws (adoptCascade C weightText env node ibd))
  | time {ibd : IBD} {adopted : SyncNode}
      (read : (IBD.readDataStream C weightText env.params.levelNodes dis).1 = .ok ibd)
      (valid : ibd.checkValidData = .ok true)
      (adopt : adoptCascade C weightText env node ibd = .ok adopted)
      (h : Throws (isUpToDate env adopted ibd))

variable {C weightText env}

theorem caught_eq_ok {e : Fault} : caught e = .ok () ↔ ∃ what, e = .exception what := by
  cases e with
  | exception what => simp [caught]
  | undefined what => simp [caught]

/-- The handler of the message sets the flag itself, so that it never weighs the chains. -/
theorem refuses_of_sync (node : SyncNode) (ibd : IBD) :
    refuses C weightText env ⟨true, node⟩ ibd = .ok false := by
  rw [refuses, if_neg]
  · rfl
  · simp

/-- A valid download goes to the processor. -/
theorem msgIBD_of_valid {main : MainState} {dis : List Byte} {ibd : IBD}
    (read : (IBD.readDataStream C weightText env.params.levelNodes dis).1 = .ok ibd)
    (valid : ibd.checkValidData = .ok true) :
    msgIBD C weightText env main dis = postProcessIBD C weightText env ⟨true, main.node⟩ ibd := by
  simp only [msgIBD, read, valid, refuses_of_sync]

/-- A download that is read but not found valid leaves the flag set. -/
theorem msgIBD_of_read_error {main : MainState} {dis : List Byte} {e : Fault}
    (read : (IBD.readDataStream C weightText env.params.levelNodes dis).1 = .error e) :
    msgIBD C weightText env main dis = (⟨true, main.node⟩, caught e) := by
  simp only [msgIBD, read]

theorem msgIBD_of_check_error {main : MainState} {dis : List Byte} {ibd : IBD} {e : Fault}
    (read : (IBD.readDataStream C weightText env.params.levelNodes dis).1 = .ok ibd)
    (h : ibd.checkValidData = .error e) :
    msgIBD C weightText env main dis = (⟨true, main.node⟩, caught e) := by
  simp only [msgIBD, read, h]

theorem msgIBD_of_invalid {main : MainState} {dis : List Byte} {ibd : IBD}
    (read : (IBD.readDataStream C weightText env.params.levelNodes dis).1 = .ok ibd)
    (h : ibd.checkValidData = .ok false) :
    msgIBD C weightText env main dis = (⟨true, main.node⟩, .ok ()) := by
  simp only [msgIBD, read, h]

theorem postProcessIBD_of_dropped {node : SyncNode} {ibd : IBD} (h : env.restoring = true ∨ env.shuttingDown = true) :
    postProcessIBD C weightText env ⟨true, node⟩ ibd = (⟨true, node⟩, .ok ()) := by
  rw [postProcessIBD]
  split_ifs with hrestoring
  · rfl
  · rw [processIBD, if_pos (h.resolve_left hrestoring)]

section Valid

variable {node : SyncNode} {ibd : IBD} (valid : ibd.checkValidData = .ok true)
  (hrestoring : env.restoring = false) (hshutting : env.shuttingDown = false)
include valid hrestoring hshutting

theorem postProcessIBD_of_cascade_error {e : Fault}
    (h : adoptCascade C weightText env node ibd = .error e) :
    postProcessIBD C weightText env ⟨true, node⟩ ibd = (⟨true, node⟩, caught e) := by
  simp [postProcessIBD, processIBD, hrestoring, hshutting, valid, h]

theorem postProcessIBD_of_time_error {e : Fault} {adopted : SyncNode}
    (adopt : adoptCascade C weightText env node ibd = .ok adopted)
    (h : isUpToDate env adopted ibd = .error e) :
    postProcessIBD C weightText env ⟨true, node⟩ ibd = (⟨true, adopted⟩, caught e) := by
  simp [postProcessIBD, processIBD, hrestoring, hshutting, valid, adopt, h]

theorem postProcessIBD_of_upToDate {adopted : SyncNode}
    (adopt : adoptCascade C weightText env node ibd = .ok adopted)
    (h : isUpToDate env adopted ibd = .ok true) :
    postProcessIBD C weightText env ⟨true, node⟩ ibd = (⟨false, adopted⟩, .ok ()) := by
  simp [postProcessIBD, processIBD, hrestoring, hshutting, valid, adopt, h]

/-- The blocks are processed: the flag is cleared unless one of them runs into undefined behaviour. -/
theorem postProcessIBD_of_blocks {adopted : SyncNode}
    (adopt : adoptCascade C weightText env node ibd = .ok adopted)
    (h : isUpToDate env adopted ibd = .ok false) :
    postProcessIBD C weightText env ⟨true, node⟩ ibd =
      match (SyncNode.syncBlocks C env.toSyncEnv 0 0 adopted ibd.txBlocks).2 with
      | (synced, .error e) => (⟨true, synced⟩, .error e)
      | (synced, .ok _) => (⟨false, synced.recalculateTree env.toSyncEnv⟩, .ok ()) := by
  simp [postProcessIBD, processIBD, hrestoring, hshutting, valid, adopt, h]

end Valid

end Handler

/-- **When the handling of a download has ended, the flag is cleared exactly when nothing left it set.** -/
theorem msgIBD_clears_iff (C : Crypto) (weightText : ℕ → Text) (env : IBDEnv) (main : MainState)
    (dis : List Byte) :
    ((msgIBD C weightText env main dis).2 = .ok () →
        (msgIBD C weightText env main dis).1.isSyncIBD = false) ↔
      ¬ Sticks C weightText env main.node dis := by
  constructor
  · rintro h (⟨what, hread⟩ | ⟨read, what, hcheck⟩ | ⟨read, hinvalid⟩ | ⟨read, valid, hdropped⟩ |
      ⟨read, valid, what, hcascade⟩ | ⟨read, valid, adopt, what, htime⟩)
    · rw [msgIBD_of_read_error hread] at h
      exact Bool.noConfusion (h rfl)
    · rw [msgIBD_of_check_error read hcheck] at h
      exact Bool.noConfusion (h rfl)
    · rw [msgIBD_of_invalid read hinvalid] at h
      exact Bool.noConfusion (h rfl)
    · rw [msgIBD_of_valid read valid, postProcessIBD_of_dropped hdropped] at h
      exact Bool.noConfusion (h rfl)
    · rw [msgIBD_of_valid read valid] at h
      by_cases hdropped : env.restoring = true ∨ env.shuttingDown = true
      · rw [postProcessIBD_of_dropped hdropped] at h
        exact Bool.noConfusion (h rfl)
      · simp only [not_or, Bool.not_eq_true] at hdropped
        rw [postProcessIBD_of_cascade_error valid hdropped.1 hdropped.2 hcascade] at h
        exact Bool.noConfusion (h rfl)
    · rw [msgIBD_of_valid read valid] at h
      by_cases hdropped : env.restoring = true ∨ env.shuttingDown = true
      · rw [postProcessIBD_of_dropped hdropped] at h
        exact Bool.noConfusion (h rfl)
      · simp only [not_or, Bool.not_eq_true] at hdropped
        rw [postProcessIBD_of_time_error valid hdropped.1 hdropped.2 adopt htime] at h
        exact Bool.noConfusion (h rfl)
  · intro hnot hended
    cases hread : (IBD.readDataStream C weightText env.params.levelNodes dis).1 with
    | error e =>
      rw [msgIBD_of_read_error hread] at hended
      obtain ⟨what, rfl⟩ := caught_eq_ok.mp hended
      exact absurd (.undecodable ⟨what, hread⟩) hnot
    | ok ibd =>
      cases hcheck : ibd.checkValidData with
      | error e =>
        rw [msgIBD_of_check_error hread hcheck] at hended
        obtain ⟨what, rfl⟩ := caught_eq_ok.mp hended
        exact absurd (.unchecked hread ⟨what, hcheck⟩) hnot
      | ok valid =>
        cases valid with
        | false => exact absurd (.invalid hread hcheck) hnot
        | true =>
          rw [msgIBD_of_valid hread hcheck] at hended ⊢
          by_cases hdropped : env.restoring = true ∨ env.shuttingDown = true
          · exact absurd (.dropped hread hcheck hdropped) hnot
          · simp only [not_or, Bool.not_eq_true] at hdropped
            obtain ⟨hrestoring, hshutting⟩ := hdropped
            cases hadopt : adoptCascade C weightText env main.node ibd with
            | error e =>
              rw [postProcessIBD_of_cascade_error hcheck hrestoring hshutting hadopt] at hended
              obtain ⟨what, rfl⟩ := caught_eq_ok.mp hended
              exact absurd (.cascade hread hcheck ⟨what, hadopt⟩) hnot
            | ok adopted =>
              cases htime : isUpToDate env adopted ibd with
              | error e =>
                rw [postProcessIBD_of_time_error hcheck hrestoring hshutting hadopt htime] at hended
                obtain ⟨what, rfl⟩ := caught_eq_ok.mp hended
                exact absurd (.time hread hcheck hadopt ⟨what, htime⟩) hnot
              | ok upToDate =>
                cases upToDate with
                | true =>
                  rw [postProcessIBD_of_upToDate hcheck hrestoring hshutting hadopt htime]
                | false =>
                  rw [postProcessIBD_of_blocks hcheck hrestoring hshutting hadopt htime] at hended ⊢
                  revert hended
                  split
                  · intro hended
                    cases hended
                  · exact fun _ => rfl

/-- No time has passed, and nothing else is going on. -/
def sampleEnv : IBDEnv := ⟨SyncNode.sampleEnv, false, false, false, false, 0, 0⟩

/-- A message without bytes cannot be read, and the flag stays set. -/
theorem msgIBD_not_clears :
    (msgIBD Crypto.plain (fun _ => []) sampleEnv ⟨false, SyncNode.behindCascade⟩ []).2 = .ok () ∧
      (msgIBD Crypto.plain (fun _ => []) sampleEnv ⟨false, SyncNode.behindCascade⟩ []).1.isSyncIBD = true := by
  decide +kernel

/-! ## A node with a cascade and a tree keeps its own chain -/

/-- **A node that grows its own chain:** blocks come in under blocks of its tree, the tree is cut to a
part of it, and only its own blocks go into its stores. -/
inductive Grows (levelNodes : ℕ) (isMega : Bool) (start : SyncNode) : SyncNode → Prop
  | start : Grows levelNodes isMega start start
  | child {s : SyncNode} {t : RoseTree TxPoW} {parentnode : BlockPtr} {zBlock : TxPoW}
      (before : Grows levelNodes isMega start s) (root : s.root = some t) (of : parentnode.Of t)
      (parent : zBlock.getParentID = .ok parentnode.getTxPoW.txPoWID) :
      Grows levelNodes isMega start { s with root := some (t.addChild parentnode.path zBlock) }
  | tip {s : SyncNode} (before : Grows levelNodes isMega start s) (tip : Option BlockPtr) :
      Grows levelNodes isMega start { s with tip := tip }
  | cut {s : SyncNode} {t : RoseTree TxPoW} {newroot : BlockPtr}
      (before : Grows levelNodes isMega start s) (root : s.root = some t) (of : newroot.Of t) :
      Grows levelNodes isMega start { s with root := some newroot.tree }
  | trim {s : SyncNode} {t : RoseTree TxPoW} {newroot : BlockPtr} {removed : List BlockPtr}
      (before : Grows levelNodes isMega start s) (root : s.root = some t) (of : newroot.Of t)
      (own : ∀ b ∈ removed, b.Of t) :
      Grows levelNodes isMega start
        { s with root := some newroot.tree, stores := feed levelNodes isMega s.stores removed }

section Grows

variable {env : SyncEnv} {start s : SyncNode}

/-- The nodes that leave the tree are nodes of the tree. -/
theorem of_removedOf {t : RoseTree TxPoW} {newroot b : BlockPtr} {fastLink : List BlockPtr}
    (hlink : fastLink.Perm t.refs) (hof : newroot.Of t) (h : b ∈ BlockTree.removedOf t fastLink newroot) :
    b.Of t := by
  unfold BlockTree.removedOf at h
  rcases List.mem_append.mp h with h | h
  · rw [BlockTree.mainChain_eq, List.mem_reverse] at h
    exact of_mem_lineage hof (List.mem_of_mem_tail h)
  · exact mem_refs.mp (hlink.mem_iff.mp (List.mem_of_mem_filter h))

theorem Grows.recalculateTree (h : Grows env.params.levelNodes env.params.isMega start s) :
    Grows env.params.levelNodes env.params.isMega start (s.recalculateTree env) := by
  unfold SyncNode.recalculateTree
  cases hroot : s.root with
  | none =>
    have htip := h.tip none
    rwa [hroot] at htip
  | some t =>
    simp only
    cases env.recalculation t with
    | none => exact h
    | some r =>
      simp only
      split_ifs
      · cases hnew : BlockTree.newRootOf t r.tip env.params.startDepth with
        | none =>
          have htip := h.tip (some r.tip)
          rwa [hroot] at htip
        | some newroot =>
          have hof : newroot.Of t := of_mem_lineage r.tip_of (BlockTree.mem_lineage_of_newRootOf hnew)
          cases hagain : env.recalculation newroot.tree with
          | none =>
            simp only [hagain]
            exact (h.cut hroot hof).tip _
          | some r' =>
            simp only [hagain]
            exact (h.trim hroot hof fun b hb => of_removedOf r.links hof hb).tip (some r'.tip)
      · have htip := h.tip (some r.tip)
        rwa [hroot] at htip

theorem Grows.processSyncBlock {C : Crypto} {stored : Result Unit}
    (h : Grows env.params.levelNodes env.params.isMega start s) (hrooted : s.Rooted) (zTxBlock : TxBlock) :
    Grows env.params.levelNodes env.params.isMega start (processSyncBlock C stored s zTxBlock).1 := by
  obtain ⟨t, hroot⟩ := Option.isSome_iff_exists.mp hrooted.1
  obtain ⟨tip, htip⟩ := Option.isSome_iff_exists.mp hrooted.2
  rcases processSyncBlock_cases C stored hroot htip zTxBlock with heq | ⟨parentnode, hof, hparent, heq⟩
  · rw [heq]
    exact h
  · rw [heq]
    exact h.child hroot hof hparent

/-- **The loop over the blocks grows a tree that is there.** -/
theorem Grows.syncBlocks {C : Crypto} {i additions : ℕ}
    (h : Grows env.params.levelNodes env.params.isMega start s) (hrooted : s.Rooted)
    (blocks : List TxBlock) :
    Grows env.params.levelNodes env.params.isMega start (syncBlocks C env i additions s blocks).2.1 := by
  induction blocks generalizing i additions s with
  | nil => exact h
  | cons block blocks ih =>
    have hafter := @Grows.processSyncBlock env start s C (env.stored i) h hrooted block
    have hrooted' := @Rooted.processSyncBlock C (env.stored i) s hrooted block
    cases hcall : SyncNode.processSyncBlock C (env.stored i) s block with
    | mk after out =>
      rw [hcall] at hafter hrooted'
      cases out with
      | error e => cases e <;> simpa only [SyncNode.syncBlocks, hcall] using hafter
      | ok b =>
        simp only [SyncNode.syncBlocks, hcall]
        have hnext : Grows env.params.levelNodes env.params.isMega start
            (nextRound env additions after).1 := by
          unfold nextRound
          split_ifs
          · exact hafter.recalculateTree
          · exact hafter
        exact ih hnext hrooted'.nextRound

/-- A node with a cascade takes over no other. -/
theorem adoptCascade_of_cascade {C : Crypto} {weightText : ℕ → Text} {env : IBDEnv} {node : SyncNode}
    {casctip : CascadeNode} (h : node.stores.cascade.getTip = some casctip) (ibd : IBD) :
    adoptCascade C weightText env node ibd = .ok node := by
  unfold adoptCascade
  rw [h]
  cases ibd.cascade <;> rfl

end Grows

/-- **A node with a cascade and a tree only ever grows its own,** whatever a download weighs: nothing
that a message brings replaces its cascade or its tree. -/
theorem msgIBD_grows (C : Crypto) (weightText : ℕ → Text) (env : IBDEnv) (main : MainState)
    (dis : List Byte) (casctip : CascadeNode) (hcasc : main.node.stores.cascade.getTip = some casctip)
    (hrooted : main.node.Rooted) :
    Grows env.params.levelNodes env.params.isMega main.node (msgIBD C weightText env main dis).1.node := by
  cases hread : (IBD.readDataStream C weightText env.params.levelNodes dis).1 with
  | error e =>
    rw [msgIBD_of_read_error hread]
    exact .start
  | ok ibd =>
    cases hcheck : ibd.checkValidData with
    | error e =>
      rw [msgIBD_of_check_error hread hcheck]
      exact .start
    | ok valid =>
      cases valid with
      | false =>
        rw [msgIBD_of_invalid hread hcheck]
        exact .start
      | true =>
        rw [msgIBD_of_valid hread hcheck]
        by_cases hdropped : env.restoring = true ∨ env.shuttingDown = true
        · rw [postProcessIBD_of_dropped hdropped]
          exact .start
        · simp only [not_or, Bool.not_eq_true] at hdropped
          obtain ⟨hrestoring, hshutting⟩ := hdropped
          have hadopt := @adoptCascade_of_cascade C weightText env main.node casctip hcasc ibd
          cases htime : isUpToDate env main.node ibd with
          | error e =>
            rw [postProcessIBD_of_time_error hcheck hrestoring hshutting hadopt htime]
            exact .start
          | ok upToDate =>
            cases upToDate with
            | true =>
              rw [postProcessIBD_of_upToDate hcheck hrestoring hshutting hadopt htime]
              exact .start
            | false =>
              have hblocks := @Grows.syncBlocks env.toSyncEnv main.node main.node C 0 0 .start hrooted
                ibd.txBlocks
              rw [postProcessIBD_of_blocks hcheck hrestoring hshutting hadopt htime]
              split
              · next synced e heq =>
                rw [heq] at hblocks
                exact hblocks
              · next synced u heq =>
                rw [heq] at hblocks
                exact hblocks.recalculateTree

/-! ### A node without a tree -/

/-- The contest that the handler leaves out, on the download of a message. -/
def ourChainHeavier (C : Crypto) (weightText : ℕ → Text) (env : IBDEnv) (node : SyncNode)
    (dis : List Byte) : Result Bool := do
  let ibd ← (IBD.readDataStream C weightText env.params.levelNodes dis).1
  let current ← ownChain C weightText env node
  IBD.checkOurChainHeavier env.params.levelNodes current ibd.chain

/-- A hash to run the contest with: the nonce of a header. -/
def nonceHash : Crypto := ⟨fun bs => (bs.drop 2).take 1⟩

/-- Every block weighs one. -/
def weightOne : ℕ → Text := fun _ => MiniNumber.ascii "1"

/-- A block whose id is its nonce: the id, the number and the parent. -/
def noncedBlock (id number : ℕ) (parent : Byte) (hid : id < 10 ^ 64 := by decide)
    (h : number < 10 ^ 64 := by decide) : TxPoW :=
  let header := { TxPoW.sampleHeader ⟨.ofInt number, MiniNumber.canonical_ofNat h⟩ TxPoW.oneStored
      (fun i => if (i : ℕ) = 0 then ⟨[parent]⟩ else MiniData.zeroTxPowID) with
    nonce := ⟨.ofInt id, MiniNumber.canonical_ofNat hid⟩ }
  match TxPoW.calculateTXPOWID nonceHash weightOne header none with
  | .ok t => t
  | .error _ => TxPoW.sample [0] number 0 (fun _ => MiniData.zeroTxPowID) h

/-- Blocks three to five in the cascade, and no tree. -/
def threeBlocks : SyncNode :=
  ⟨none, none, ⟨Cascade.empty.addAll [noncedBlock 3 3 2 TxPoW.three_lt_limit TxPoW.three_lt_limit,
    noncedBlock 4 4 3 TxPoW.four_lt_limit TxPoW.four_lt_limit,
    noncedBlock 5 5 4 TxPoW.five_lt_limit TxPoW.five_lt_limit], [], []⟩⟩

/-- Two blocks of another chain: the first is the cascade, the second the tree. -/
def lighterIBD : IBD :=
  ⟨some (Cascade.empty.addToTip (noncedBlock 0x15 5 0 (by decide) TxPoW.five_lt_limit)),
    [⟨noncedBlock 0x16 6 0x15 (by decide) TxPoW.six_lt_limit, [], [], []⟩]⟩

/-- The message with the two blocks. -/
def lighterMessage : List Byte := (lighterIBD.writeDataStream).toOption.getD []

/-- A tree that is not there does not grow. -/
theorem Grows.root_none {levelNodes : ℕ} {isMega : Bool} {start s : SyncNode}
    (h : Grows levelNodes isMega start s) (hroot : start.root = none) : s.root = none := by
  induction h with
  | start => exact hroot
  | child before root of parent ih => exact absurd (root.symm.trans ih) nofun
  | tip before tip ih => exact ih
  | cut before root of ih => exact absurd (root.symm.trans ih) nofun
  | trim before root of own ih => exact absurd (root.symm.trans ih) nofun

/-- The same cascade with block six as the tree. -/
def withTree : SyncNode :=
  let t : RoseTree TxPoW := .node (noncedBlock 6 6 5 TxPoW.six_lt_limit TxPoW.six_lt_limit) []
  { threeBlocks with root := some t, tip := some t.rootRef }

/-- With a tree the download changes nothing but the node's own chain. -/
theorem msgIBD_grows_withTree :
    Grows 256 false withTree
      (msgIBD nonceHash weightOne sampleEnv ⟨false, withTree⟩ lighterMessage).1.node :=
  msgIBD_grows nonceHash weightOne sampleEnv ⟨false, withTree⟩ lighterMessage
    (CascadeNode.ofTxPoW (noncedBlock 5 5 4)) rfl ⟨rfl, rfl⟩

/-- The node has three blocks in its cascade and no tree, the download weighs two, and its second block
becomes the tree all the same. -/
theorem msgIBD_not_heavier :
    ourChainHeavier nonceHash weightOne sampleEnv threeBlocks lighterMessage = .ok true ∧
      0 < threeBlocks.stores.cascade.getLength ∧
      ((msgIBD nonceHash weightOne sampleEnv ⟨false, threeBlocks⟩ lighterMessage).1.node.root.map
        fun t => t.value.txPoWID) = some ⟨[0x16]⟩ ∧
      ¬ Grows 256 false threeBlocks
        (msgIBD nonceHash weightOne sampleEnv ⟨false, threeBlocks⟩ lighterMessage).1.node := by
  have hroot : ((msgIBD nonceHash weightOne sampleEnv ⟨false, threeBlocks⟩ lighterMessage).1.node.root.map
      fun t => t.value.txPoWID) = some ⟨[0x16]⟩ := by decide +kernel
  refine ⟨by decide +kernel, by decide +kernel, hroot, ?_⟩
  intro hgrows
  rw [hgrows.root_none rfl] at hroot
  cases hroot

end NIOMessage

end Minima
