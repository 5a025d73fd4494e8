import Minima.Database.ArchiveManager

/-! # `PROCESS_SYNCIBD`: older blocks for the archive

A peer sends the blocks before the oldest one in the archive, newest first. The handler compares each
block with the one before it in the list, and archives it when it is the parent of that one; a block
with another number is passed over, but the next one is compared with it all the same.

* **`TxPoWProcessor.processSyncIBD`** — the handler, with the blocks whose rows came in.
* **`processSyncIBD_parentChain_iff`** — these form a parent chain back from the oldest archived block
  exactly when the list never picks up behind a block that was passed over. -/

namespace Minima

namespace TxPoWProcessor

/-! ## The handler -/

/-- How a block stands to the one before it in the list: it is its parent, it has another number than
its parent, or the number but not the id. -/
inductive Link where
  | parent
  | passed
  | broken
  deriving DecidableEq

/-- The two comparisons of the loop. -/
def linkOf (lastpow : TxPoW) (block : TxBlock) : Result Link := do
  let lastnum ← lastpow.getBlockNumber.decrement
  if block.txpow.getBlockNumber.isEqual lastnum then
    let parentID ← lastpow.getParentID
    if block.txpow.txPoWID.isEqual parentID then return .parent else return .broken
  else return .passed

/-- One round of the loop: the archive, and whether a row came in; nothing when the handler returns
or throws in it. -/
def syncStep (archive : Archive) (lastpow : TxPoW) (block : TxBlock) : Option (Archive × Bool) :=
  match linkOf lastpow block with
  | .ok .parent => (archive.saveBlock block).toOption
  | .ok .passed => some (archive, false)
  | .ok .broken => none
  | .error _ => none

/-- The loop of `PROCESS_SYNCIBD`: the archive behind it, and the blocks that it added, in order.
`lastpow` moves on with every block. -/
def syncLoop : Archive → TxPoW → List TxBlock → Archive × List TxBlock
  | archive, _, [] => (archive, [])
  | archive, lastpow, block :: blocks =>
    match syncStep archive lastpow block with
    | some (archive, added) =>
      let (archive, saved) := syncLoop archive block.txpow blocks
      (archive, if added then block :: saved else saved)
    | none => (archive, [])

/-- Where the handler starts from: the oldest block of the archive, or else the root of the tree. -/
def oldestPow (C : Crypto) (weightText : ℕ → Text) (archive : Archive) (root : Option TxPoW) :
    Option TxPoW :=
  match archive.loadLastBlock C weightText with
  | .ok (some lastblock) => some lastblock.txpow
  | .ok none => root
  | .error _ => none

/-- **`PROCESS_SYNCIBD`** on the blocks of the message. -/
def processSyncIBD (C : Crypto) (weightText : ℕ → Text) (archive : Archive) (root : Option TxPoW)
    (blocks : List TxBlock) : Archive × List TxBlock :=
  match oldestPow C weightText archive root with
  | some lastpow => syncLoop archive lastpow blocks
  | none => (archive, [])

/-! ## The parent chain -/

/-- A block is the parent of another: by id, and by the number minus one. -/
def IsParentOf (block : TxBlock) (child : TxPoW) : Prop :=
  ∃ lastnum, child.getBlockNumber.decrement = .ok lastnum ∧
    block.txpow.getBlockNumber.toRat = lastnum.toRat ∧ child.getParentID = .ok block.txpow.txPoWID

/-- **Every saved block is the parent of the oldest archived block just before,** which is `oldest` at
first, and then the last one that was saved. -/
def ParentChain : Option TxPoW → List TxBlock → Prop
  | _, [] => True
  | none, _ :: _ => False
  | some oldest, block :: saved => IsParentOf block oldest ∧ ParentChain (some block.txpow) saved

/-- Two blocks have the same parent as far as the handler looks: the id, and the number minus one. -/
def SameParent (a b : TxPoW) : Prop :=
  a.getParentID = b.getParentID ∧
    ∃ m n, a.getBlockNumber.decrement = .ok m ∧ b.getBlockNumber.decrement = .ok n ∧ m.toRat = n.toRat

/-- **The list never picks up behind a block that was passed over:** a block that is the parent of the
one before it in the list, and that is new to the archive, comes behind a block with the same parent as
the oldest one archived. -/
def NoPickUp : Archive → TxPoW → TxPoW → List TxBlock → Prop
  | _, _, _, [] => True
  | archive, oldest, lastpow, block :: blocks =>
    match syncStep archive lastpow block with
    | some (archive, true) => SameParent oldest lastpow ∧ NoPickUp archive block.txpow block.txpow blocks
    | some (archive, false) => NoPickUp archive oldest block.txpow blocks
    | none => True

theorem linkOf_eq_parent_iff {lastpow : TxPoW} {block : TxBlock} :
    linkOf lastpow block = .ok .parent ↔ IsParentOf block lastpow := by
  rw [linkOf, Result.bind_eq_ok]
  refine exists_congr fun lastnum => and_congr_right fun _ => ?_
  split_ifs with hnum
  · rw [MiniNumber.isEqual_iff] at hnum
    rw [Result.bind_eq_ok, and_iff_right hnum]
    constructor
    · rintro ⟨parentID, hparent, hid⟩
      rw [hparent]
      split_ifs at hid with heq
      · rw [(MiniData.isEqual_iff _ _).mp heq]
      · cases hid
    · intro hparent
      exact ⟨_, hparent, by rw [if_pos ((MiniData.isEqual_iff _ _).mpr rfl)]; rfl⟩
  · rw [MiniNumber.isEqual_iff] at hnum
    constructor
    · intro h
      cases h
    · intro h
      exact absurd h.1 hnum

/-- A row only comes in for the parent of the block before. -/
theorem isParentOf_of_added {archive archive' : Archive} {lastpow : TxPoW} {block : TxBlock}
    (h : syncStep archive lastpow block = some (archive', true)) : IsParentOf block lastpow := by
  apply linkOf_eq_parent_iff.mp
  rw [syncStep] at h
  split at h
  · assumption
  · cases h
  · cases h
  · cases h

/-- The parent of a block is the parent of another one exactly when these two have the same parent. -/
theorem isParentOf_iff_sameParent {block : TxBlock} {lastpow oldest : TxPoW}
    (h : IsParentOf block lastpow) : IsParentOf block oldest ↔ SameParent oldest lastpow := by
  obtain ⟨n, hn, hnum, hid⟩ := h
  constructor
  · rintro ⟨m, hm, hnum', hid'⟩
    exact ⟨hid'.trans hid.symm, m, n, hm, hn, hnum'.symm.trans hnum⟩
  · rintro ⟨hparent, m, n', hm, hn', heq⟩
    obtain rfl : n = n' := Except.ok.inj (hn.symm.trans hn')
    exact ⟨m, hm, hnum.trans heq.symm, hparent.trans hid⟩

/-- **What a loop saves is a parent chain exactly when its list never picks up behind a block that was
passed over.** -/
theorem parentChain_syncLoop_iff (archive : Archive) (oldest lastpow : TxPoW) (blocks : List TxBlock) :
    ParentChain (some oldest) (syncLoop archive lastpow blocks).2 ↔
      NoPickUp archive oldest lastpow blocks := by
  induction blocks generalizing archive oldest lastpow with
  | nil => simp [syncLoop, NoPickUp, ParentChain]
  | cons block blocks ih =>
    rw [syncLoop, NoPickUp]
    cases hstep : syncStep archive lastpow block with
    | none => simp [ParentChain]
    | some r =>
      obtain ⟨archive', added⟩ := r
      cases added with
      | false => exact ih archive' oldest block.txpow
      | true =>
        show ParentChain (some oldest) (block :: _) ↔ _
        rw [ParentChain, isParentOf_iff_sameParent (isParentOf_of_added hstep), ih]

/-- **The archive grows by a parent chain exactly when the list never picks up behind a block that was
passed over.** -/
theorem processSyncIBD_parentChain_iff (C : Crypto) (weightText : ℕ → Text) (archive : Archive)
    (root : Option TxPoW) (blocks : List TxBlock) :
    ParentChain (oldestPow C weightText archive root)
        (processSyncIBD C weightText archive root blocks).2 ↔
      ∀ oldest ∈ oldestPow C weightText archive root, NoPickUp archive oldest oldest blocks := by
  rw [processSyncIBD]
  cases oldestPow C weightText archive root with
  | none => simp [ParentChain]
  | some oldest => simpa using parentChain_syncLoop_iff archive oldest oldest blocks

/-! ## A list that picks up -/

/-- A block without coins: its id, its number and its parent. -/
def sampleBlock (id : Byte) (number : ℕ) (parent : Byte) (h : number < 10 ^ 64 := by decide) : TxBlock :=
  ⟨TxPoW.sample [id] number 0 (fun _ => ⟨[parent]⟩) h, [], [], []⟩

/-- Block ten, the root of the tree, on block nine. -/
def rootTen : TxPoW := (sampleBlock 10 10 9).txpow

/-- Block eight of another branch, and its parent. -/
def otherBranch : List TxBlock := [sampleBlock 0x88 8 0x77, sampleBlock 0x77 7 0x66]

/-- With an empty archive the root of the tree is block ten. Block eight of the other branch is passed
over, its parent is archived behind it, and is not the parent of block ten. -/
theorem processSyncIBD_not_parentChain :
    (processSyncIBD Crypto.plain (fun _ => []) Archive.empty (some rootTen) otherBranch).2 =
        [sampleBlock 0x77 7 0x66] ∧
      ¬ ParentChain (oldestPow Crypto.plain (fun _ => []) Archive.empty (some rootTen))
        (processSyncIBD Crypto.plain (fun _ => []) Archive.empty (some rootTen) otherBranch).2 := by
  have hsaved : (processSyncIBD Crypto.plain (fun _ => []) Archive.empty (some rootTen) otherBranch).2 =
      [sampleBlock 0x77 7 0x66] := by decide +kernel
  refine ⟨hsaved, ?_⟩
  rw [hsaved]
  rintro ⟨⟨lastnum, -, -, hid⟩, -⟩
  exact absurd hid (by decide +kernel)

end TxPoWProcessor

end Minima
