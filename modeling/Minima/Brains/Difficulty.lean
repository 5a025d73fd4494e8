import Minima.Lib.OrderStatistic
import Minima.Objects.TxPoW

/-! # The difficulty of the next block

`getBlockDifficulty` compares the time that the last 256 blocks took with the time they should have
taken. Both ends are medians of 64 blocks, so that one wrong time does no harm. All of it is calculated
in the tree, and where the root of the tree is reached the windows are cut short.

* **`getMedianTimeBlock`**, **`getBlockDifficulty`** — the two calculations.
* **`getMedianTimeBlock_eq_iff`** — the median block depends on how equal times are sorted.
* **`getBlockDifficulty_rootedAt_iff`** — the difficulty depends on where the root is, if that is less
  than both windows back. -/

namespace Minima

open TwosComplement

/-! ## Nodes of the tree -/

/-- **`TxPoWTreeNode`** as far as the chain behind it goes: its block, and the blocks from its parent
back to the root of the tree. -/
structure TreeNode where
  txpow : TxPoW
  ancestors : List TxPoW
  deriving DecidableEq

namespace TreeNode

/-- The blocks from the node back to the root. -/
def chain (n : TreeNode) : List TxPoW := n.txpow :: n.ancestors

/-- `getParent`. -/
def getParent : TreeNode → Option TreeNode
  | ⟨_, []⟩ => none
  | ⟨_, p :: ps⟩ => some ⟨p, ps⟩

/-- The loop of `getParent(int)`: it stops at the root. -/
def parentLoop : ℕ → TreeNode → TreeNode
  | 0, n => n
  | todo + 1, n =>
    match n.getParent with
    | some p => parentLoop todo p
    | none => n

/-- `getParent(int)`. -/
def getParentAt (n : TreeNode) (zBlocks : ℤ) : TreeNode := parentLoop zBlocks.toNat n

/-- `getBlockNumber`. -/
def getBlockNumber (n : TreeNode) : MiniNumber := n.txpow.getBlockNumber

theorem chain_injective {a b : TreeNode} (h : a.chain = b.chain) : a = b := by
  cases a
  cases b
  rw [chain, chain, List.cons.injEq] at h
  rw [mk.injEq]
  exact h

theorem txpow_eq_getElem {n x : TreeNode} {i : ℕ} (h : x.chain = n.chain.drop i)
    (hi : i < n.chain.length) : x.txpow = n.chain[i] := by
  rw [List.drop_eq_getElem_cons hi, chain, List.cons.injEq] at h
  exact h.1

theorem length_chain_pos (n : TreeNode) : 0 < n.chain.length := Nat.succ_pos _

/-- The parent is there as long as the chain goes on. -/
theorem getParent_of_lt {n : TreeNode} (h : 1 < n.chain.length) :
    ∃ p, n.getParent = some p ∧ p.chain = n.chain.drop 1 := by
  obtain ⟨txpow, ancestors⟩ := n
  cases ancestors with
  | nil => exact absurd h (lt_irrefl 1)
  | cons p ps => exact ⟨⟨p, ps⟩, rfl, rfl⟩

theorem getParent_of_length_eq {n : TreeNode} (h : n.chain.length = 1) : n.getParent = none := by
  obtain ⟨txpow, ancestors⟩ := n
  cases ancestors with
  | nil => rfl
  | cons p ps => simp [chain] at h

/-- **Above the root `getParent(int)` counts blocks.** -/
theorem chain_parentLoop {n : TreeNode} {i : ℕ} (h : i < n.chain.length) :
    (parentLoop i n).chain = n.chain.drop i := by
  induction i generalizing n with
  | zero => rfl
  | succ i ih =>
    obtain ⟨p, hp, hchain⟩ := n.getParent_of_lt (by omega)
    rw [parentLoop, hp]
    simp only
    rw [ih (by rw [hchain, List.length_drop]; omega), hchain, List.drop_drop, Nat.add_comm]

/-- **Two nodes agree on the last `m` blocks**, whatever is behind these. -/
structure Agree (m : ℕ) (a b : TreeNode) : Prop where
  take : a.chain.take m = b.chain.take m
  left : m ≤ a.chain.length
  right : m ≤ b.chain.length

theorem Agree.symm {m : ℕ} {a b : TreeNode} (h : Agree m a b) : Agree m b a := ⟨h.take.symm, h.right, h.left⟩

theorem Agree.mono {m k : ℕ} {a b : TreeNode} (h : Agree m a b) (hk : k ≤ m) : Agree k a b where
  take := by
    have hmin : min k m = k := min_eq_left hk
    rw [← hmin, ← List.take_take, ← List.take_take, h.take]
  left := hk.trans h.left
  right := hk.trans h.right

/-- The node itself is the same block. -/
theorem Agree.txpow_eq {m : ℕ} {a b : TreeNode} (h : Agree m a b) (hm : 0 < m) : a.txpow = b.txpow := by
  have htake := (h.mono hm).take
  rw [chain, chain, List.take_succ_cons, List.take_succ_cons, List.cons.injEq] at htake
  exact htake.1

/-- Going back the same number of blocks keeps the agreement, on so many blocks fewer. -/
theorem Agree.drop {m i : ℕ} {a b a' b' : TreeNode} (h : Agree m a b) (ha : a'.chain = a.chain.drop i)
    (hb : b'.chain = b.chain.drop i) : Agree (m - i) a' b' where
  take := by rw [ha, hb, ← List.drop_take, ← List.drop_take, h.take]
  left := by
    rw [ha, List.length_drop]
    exact Nat.sub_le_sub_right h.left i
  right := by
    rw [hb, List.length_drop]
    exact Nat.sub_le_sub_right h.right i

/-- `getParent(int)` finds the same block for both. -/
theorem Agree.getParentAt {m : ℕ} {a b : TreeNode} (h : Agree m a b) {zBlocks : ℤ}
    (hk : zBlocks.toNat < m) :
    Agree (m - zBlocks.toNat) (a.getParentAt zBlocks) (b.getParentAt zBlocks) :=
  h.drop (chain_parentLoop (hk.trans_le h.left)) (chain_parentLoop (hk.trans_le h.right))

end TreeNode

/-! ## Parameters -/

/-- `MIN_HASHES` hashes on average. -/
def Magic.minTxPoWVal : ℕ := (2 ^ 256 - 1) / 10000

/-- `cpp_int_to_mini_data`: big endian, without leading zeros. -/
def cppIntToMiniData (value : ℤ) : MiniData :=
  if value = 0 then ⟨[0]⟩
  else if value < 0 then ⟨[]⟩
  else ⟨bytesBE (Nat.log 256 value.toNat + 1) value.toNat⟩

/-- `MIN_TXPOW_WORK`. -/
def Magic.minTxPoWWork : MiniData := cppIntToMiniData Magic.minTxPoWVal

/-- `MINIMA_BLOCKS_SPEED_CALC`, `MEDIAN_BLOCK_CALC` and `MINIMA_BLOCK_SPEED`: a median looks at some
blocks, and at no more than there are between the two ends. -/
structure SpeedParams where
  blocksSpeedCalc : ℕ
  medianBlockCalc : ℕ
  blockSpeed : MiniNumber
  eight_le : 8 ≤ blocksSpeedCalc
  median_pos : 0 < medianBlockCalc
  median_le : medianBlockCalc ≤ blocksSpeedCalc

/-- `GlobalParams`. -/
def SpeedParams.global : SpeedParams := ⟨256, 64, ⟨2, 2⟩, by decide, by decide, by decide⟩

/-- `TestParams`. -/
def SpeedParams.test : SpeedParams := ⟨16, 8, ⟨5, 2⟩, by decide, by decide, by decide⟩

namespace TxPoWGenerator

/-- `MAX_SPBOUND_DIFFICULTY`. -/
def maxSpBound : MiniNumber := ⟨20, 1⟩

/-- `MIN_SPBOUND_DIFFICULTY`. -/
def minSpBound : MiniNumber := ⟨5, 1⟩

/-! ## The median-time block -/

/-- `std::sort` with the comparator of `getMedianTimeBlock`, which looks at the times only. -/
abbrev TimeSort := SortBy MiniNumber.toRat

/-- The loop of `getMedianTimeBlock` that collects the blocks. -/
def collect : ℕ → TreeNode → List TreeNode
  | 0, _ => []
  | todo + 1, current =>
    current ::
      match current.getParent with
      | some p => collect todo p
      | none => []

/-- The blocks that are collected are the last ones of the chain. -/
theorem map_txpow_collect (k : ℕ) (n : TreeNode) :
    (collect k n).map TreeNode.txpow = n.chain.take k := by
  induction k generalizing n with
  | zero => rfl
  | succ k ih =>
    obtain ⟨txpow, ancestors⟩ := n
    cases ancestors with
    | nil => simp [collect, TreeNode.getParent, TreeNode.chain]
    | cons p ps => simp [collect, TreeNode.getParent, TreeNode.chain, ih]

theorem length_collect (k : ℕ) (n : TreeNode) : (collect k n).length = min k n.chain.length := by
  rw [← List.length_take, ← map_txpow_collect, List.length_map]

/-- Each is the node so many blocks back. -/
theorem chain_of_mem_collect {k i : ℕ} {n x : TreeNode} (h : (collect k n)[i]? = some x) :
    x.chain = n.chain.drop i := by
  induction k generalizing n i with
  | zero => simp [collect] at h
  | succ k ih =>
    rw [collect] at h
    cases i with
    | zero =>
      obtain rfl : n = x := Option.some.inj h
      rfl
    | succ i =>
      rw [List.getElem?_cons_succ] at h
      cases hp : n.getParent with
      | none => simp [hp] at h
      | some p =>
        simp only [hp] at h
        obtain ⟨txpow, ancestors⟩ := n
        cases ancestors with
        | nil => simp [TreeNode.getParent] at hp
        | cons q qs =>
          obtain rfl : (⟨q, qs⟩ : TreeNode) = p := Option.some.inj hp
          have hchain : x.chain = (⟨q, qs⟩ : TreeNode).chain.drop i := ih h
          exact hchain

/-- `getTimeMilli` of a node. -/
def timeMilli (n : TreeNode) : MiniNumber := n.txpow.getTimeMilli

/-- **`getMedianTimeBlock`**: the block in the middle of the last `zBlocksBack`, by time. -/
def getMedianTimeBlock (s : TimeSort) (zStartBlock : TreeNode) (zBlocksBack : ℤ) : TreeNode :=
  let allblocks := collect zBlocksBack.toNat zStartBlock
  (s.pick timeMilli allblocks (allblocks.length / 2)).getD zStartBlock

/-- The times of the last `k` blocks. -/
def times (k : ℕ) (n : TreeNode) : List MiniNumber := (n.chain.take k).map TxPoW.getTimeMilli

theorem map_timeMilli_collect (k : ℕ) (n : TreeNode) : (collect k n).map timeMilli = times k n := by
  rw [times, ← map_txpow_collect, List.map_map]
  rfl

/-- **The median block by its position:** the sort of the times says how many blocks back it is. -/
theorem getMedianTimeBlock_spec (s : TimeSort) (n : TreeNode) {k : ℕ} (hk : 0 < k) :
    ∃ i, (s.order (times k n))[(times k n).length / 2]? = some i ∧ i < k ∧ i < n.chain.length ∧
      (getMedianTimeBlock s n k).chain = n.chain.drop i := by
  have hlen : (collect k n).length = (times k n).length := by
    rw [← map_timeMilli_collect, List.length_map]
  have hmin : (times k n).length = min k n.chain.length := by rw [← hlen, length_collect]
  have hpos := n.length_chain_pos
  obtain ⟨i, hi, hlt⟩ := s.exists_order_eq (show (times k n).length / 2 < (times k n).length by omega)
  refine ⟨i, hi, by omega, by omega, ?_⟩
  have hget : (collect k n)[i]? = some ((collect k n).get ⟨i, by omega⟩) :=
    List.getElem?_eq_getElem (by omega)
  rw [← chain_of_mem_collect hget]
  simp only [getMedianTimeBlock, Int.toNat_natCast, SortBy.pick, map_timeMilli_collect, hlen, hi,
    Option.bind_some, hget, Option.getD_some]

/-! ## The difficulty -/

/-- `getChainSpeed`, in blocks per second. -/
def getChainSpeed (zStartBlock : TreeNode) (zBlocksBack : MiniNumber) : Result MiniNumber := do
  let pastblock := zStartBlock.getParentAt zBlocksBack.getAsInt
  let blockdiff ← zStartBlock.txpow.getBlockNumber.sub pastblock.txpow.getBlockNumber
  let timediff ← zStartBlock.txpow.getTimeMilli.sub pastblock.txpow.getTimeMilli
  let speedmilli ← blockdiff.div timediff
  speedmilli.mult .thousand

/-- The loop of `getAverageDifficulty_impl`: it looks at the difficulty of `current` before it asks
whether there is one. -/
def difficultyLoop : ℕ → Option TreeNode → ℕ → Result ℕ
  | 0, _, total => .ok total
  | todo + 1, some current, total =>
    difficultyLoop todo current.getParent (total + current.txpow.getBlockDifficulty.getDataValue)
  | _ + 1, none, _ => undefinedBehaviour "current is null"

/-- `getAverageDifficulty_impl`. -/
def getAverageDifficulty (zTopBlock : TreeNode) (zBlocksBack : MiniNumber) : Result ℕ := do
  let totalblock := zBlocksBack.getAsInt.toNat
  let total ← difficultyLoop totalblock (some zTopBlock) 0
  return if totalblock = 0 then 0 else total / totalblock

/-- `getBlockDifficulty` from the two median blocks on. -/
def difficultyBetween (par : SpeedParams) (zParent startblock endblock : TreeNode) : Result MiniData := do
  let blockdiff ← startblock.getBlockNumber.sub endblock.getBlockNumber
  if startblock.getBlockNumber.isEqual endblock.getBlockNumber then
    return zParent.txpow.getBlockDifficulty
  let timediff ← startblock.txpow.getTimeMilli.sub endblock.txpow.getTimeMilli
  if timediff.isLessEqual .zero then
    -- SERIOUS NEGATIVE TIME ERROR
    return zParent.txpow.getBlockDifficulty
  let speed ← getChainSpeed startblock blockdiff
  let speedratio ← par.blockSpeed.div speed
  let speedratio := if speedratio.isMore maxSpBound then maxSpBound
    else if speedratio.isLess minSpBound then minSpBound else speedratio
  let averagedifficulty ← getAverageDifficulty startblock blockdiff
  let newdiff := cppIntToMiniData (speedratio.multBigInteger averagedifficulty)
  return if newdiff.isMore Magic.minTxPoWWork then Magic.minTxPoWWork else newdiff

/-- **`getBlockDifficulty`**: what a block on `zParent` has to meet. -/
def getBlockDifficulty (par : SpeedParams) (s : TimeSort) (zParent : TreeNode) : Result MiniData :=
  if zParent.getBlockNumber.isLess .eight then .ok Magic.minTxPoWWork
  else
    let endblock := zParent.getParentAt par.blocksSpeedCalc
    difficultyBetween par zParent (getMedianTimeBlock s zParent par.medianBlockCalc)
      (getMedianTimeBlock s endblock par.medianBlockCalc)

/-! ## The median block and the order of equal times -/

/-- Some sort by time: insertion sort. -/
def insertionByTime : TimeSort :=
  .insertion MiniNumber.toRat MiniNumber.isLessEqual MiniNumber.isLessEqual_iff

/-- **The median is alone with its time:** one block of the window has as many earlier ones as the
middle position says, and no other block has its time. -/
def MedianAlone (n : TreeNode) (zBlocksBack : ℤ) : Prop :=
  zBlocksBack ≤ 0 ∨
    SortBy.Alone MiniNumber.toRat (times zBlocksBack.toNat n) ((times zBlocksBack.toNat n).length / 2)

/-- **All sorts find the same median block** exactly when it is alone with its time. -/
theorem forall_getMedianTimeBlock_eq_iff (n : TreeNode) (zBlocksBack : ℤ) :
    (∀ s₁ s₂ : TimeSort, getMedianTimeBlock s₁ n zBlocksBack = getMedianTimeBlock s₂ n zBlocksBack) ↔
      MedianAlone n zBlocksBack := by
  rcases le_or_gt zBlocksBack 0 with hle | hpos
  · refine iff_of_true (fun s₁ s₂ => ?_) (.inl hle)
    have hzero : zBlocksBack.toNat = 0 := by omega
    simp [getMedianTimeBlock, hzero, collect, SortBy.pick]
  · obtain ⟨k, rfl⟩ := Int.eq_ofNat_of_zero_le hpos.le
    have hk : 0 < k := by omega
    rw [MedianAlone, or_iff_right (not_le.mpr hpos), Int.toNat_natCast]
    have hlen : 0 < (times k n).length := by
      rw [times, List.length_map, List.length_take]
      have := n.length_chain_pos
      omega
    rw [← SortBy.forall_order_eq_iff insertionByTime (Nat.div_lt_self hlen one_lt_two)]
    refine forall_congr' fun s₁ => forall_congr' fun s₂ => ?_
    obtain ⟨i, hi, -, hilen, hci⟩ := getMedianTimeBlock_spec s₁ n hk
    obtain ⟨j, hj, -, hjlen, hcj⟩ := getMedianTimeBlock_spec s₂ n hk
    rw [hi, hj, Option.some.injEq]
    constructor
    · intro heq
      rw [heq, hcj] at hci
      have hlength := congrArg List.length hci
      rw [List.length_drop, List.length_drop] at hlength
      omega
    · rintro rfl
      exact TreeNode.chain_injective (hci.trans hcj.symm)

/-- **The median block is well defined** exactly when it is alone with its time; and where the medians
of both windows are, the difficulty does not depend on the sort either. -/
theorem getMedianTimeBlock_sort_iff (zStartBlock : TreeNode) (zBlocksBack : ℤ) :
    ((∀ s₁ s₂ : TimeSort, getMedianTimeBlock s₁ zStartBlock zBlocksBack =
        getMedianTimeBlock s₂ zStartBlock zBlocksBack) ↔ MedianAlone zStartBlock zBlocksBack) ∧
      ∀ par : SpeedParams, MedianAlone zStartBlock par.medianBlockCalc →
        MedianAlone (zStartBlock.getParentAt par.blocksSpeedCalc) par.medianBlockCalc →
          ∀ s₁ s₂ : TimeSort, getBlockDifficulty par s₁ zStartBlock =
            getBlockDifficulty par s₂ zStartBlock := by
  refine ⟨forall_getMedianTimeBlock_eq_iff zStartBlock zBlocksBack, fun par hstart hend s₁ s₂ => ?_⟩
  have hsame := (forall_getMedianTimeBlock_eq_iff _ _).mpr hstart s₁ s₂
  have hsame' := (forall_getMedianTimeBlock_eq_iff _ _).mpr hend s₁ s₂
  simp only [getBlockDifficulty, hsame, hsame']

/-! ## The difficulty does not depend on blocks behind both windows -/

/-- Only the last `k` blocks are looked at. -/
theorem difficultyLoop_of_agree {k : ℕ} {a b : TreeNode} (h : a.Agree k b) (total : ℕ) :
    difficultyLoop k (some a) total = difficultyLoop k (some b) total := by
  induction k generalizing a b total with
  | zero => rfl
  | succ k ih =>
    rw [difficultyLoop, difficultyLoop, h.txpow_eq (Nat.succ_pos k)]
    cases k with
    | zero => rfl
    | succ k =>
      have hleft := h.left
      have hright := h.right
      obtain ⟨p, hp, hpc⟩ := TreeNode.getParent_of_lt (n := a) (by omega)
      obtain ⟨q, hq, hqc⟩ := TreeNode.getParent_of_lt (n := b) (by omega)
      rw [hp, hq]
      exact ih (h.drop hpc hqc) _

/-- `getChainSpeed` and `getAverageDifficulty_impl` look back as far as they are told. -/
theorem getChainSpeed_of_agree {m : ℕ} {a b : TreeNode} (h : a.Agree m b) {zBlocksBack : MiniNumber}
    (hk : zBlocksBack.getAsInt.toNat < m) : getChainSpeed a zBlocksBack = getChainSpeed b zBlocksBack := by
  have hpast := (h.getParentAt hk).txpow_eq (by omega)
  rw [getChainSpeed, getChainSpeed, hpast, h.txpow_eq (by omega)]

theorem getAverageDifficulty_of_agree {m : ℕ} {a b : TreeNode} (h : a.Agree m b)
    {zBlocksBack : MiniNumber} (hk : zBlocksBack.getAsInt.toNat < m) :
    getAverageDifficulty a zBlocksBack = getAverageDifficulty b zBlocksBack := by
  rw [getAverageDifficulty, getAverageDifficulty, difficultyLoop_of_agree (h.mono hk.le)]

/-- The same with the median blocks: the difference of their numbers must not lead out of the last
blocks. -/
theorem difficultyBetween_of_agree {par : SpeedParams} {a b sa sb ea eb : TreeNode} {m : ℕ}
    (hparent : a.txpow = b.txpow) (hstart : sa.Agree m sb) (hend : ea.txpow = eb.txpow)
    (hm : ∀ c, sa.getBlockNumber.sub ea.getBlockNumber = .ok c → c.getAsInt.toNat < m) (hpos : 0 < m) :
    difficultyBetween par a sa ea = difficultyBetween par b sb eb := by
  have hs := hstart.txpow_eq hpos
  simp only [TreeNode.getBlockNumber] at hm
  simp only [difficultyBetween, TreeNode.getBlockNumber, ← hparent, ← hs, ← hend]
  cases hsub : sa.txpow.getBlockNumber.sub ea.txpow.getBlockNumber with
  | error e => rfl
  | ok blockdiff =>
    have hk := hm blockdiff hsub
    simp only [Result.ok_bind, getChainSpeed_of_agree hstart hk, getAverageDifficulty_of_agree hstart hk]

/-! ## Chains with their numbers -/

/-- **A chain as `checkTxPoWBlock` accepts it:** every block has the number after its parent's, and
numbers are not negative. -/
structure NumberedUp (chain : List TxPoW) : Prop where
  next : chain.IsChain fun b p =>
    ∃ n, p.getBlockNumber.increment = .ok n ∧ b.getBlockNumber.isEqual n = true
  nonneg : ∀ b ∈ chain, 0 ≤ b.getBlockNumber.unscaled

/-- Numbers go down along the chain, by at most one for every block. -/
theorem NumberedUp.between {chain : List TxPoW} (h : NumberedUp chain) {i j : ℕ} (hij : i ≤ j)
    (hj : j < chain.length) :
    chain[j].getBlockNumber.toRat ≤ chain[i].getBlockNumber.toRat ∧
      chain[i].getBlockNumber.toRat ≤ chain[j].getBlockNumber.toRat + (j - i : ℕ) := by
  induction j, hij using Nat.le_induction with
  | base => simp
  | succ j hij ih =>
    obtain ⟨h1, h2⟩ := ih (by omega)
    obtain ⟨n, hn, heq⟩ := List.isChain_iff_getElem.mp h.next j hj
    rw [MiniNumber.isEqual_iff] at heq
    have hnonneg : chain[j + 1].getBlockNumber.IsNonneg :=
      ⟨chain[j + 1].header.blockNumber.property, h.nonneg _ (List.getElem_mem hj)⟩
    have hle := (hnonneg.add_one hn).2
    have hadd := (hnonneg.add MiniNumber.isNonneg_one hn).2.1
    rw [MiniNumber.toRat_one] at hadd
    rw [show j + 1 - i = (j - i) + 1 by omega]
    push_cast
    constructor <;> linarith

/-- Between two blocks of a chain the numbers differ by no more than the blocks between them. -/
theorem NumberedUp.sub_lt {n x y : TreeNode} (h : NumberedUp n.chain) {i j m : ℕ} (hij : i ≤ j)
    (hj : j < n.chain.length) (hm : j < m) (hx : x.chain = n.chain.drop i) (hy : y.chain = n.chain.drop j)
    {c : MiniNumber} (hc : x.getBlockNumber.sub y.getBlockNumber = .ok c) :
    c.getAsInt.toNat < m - i := by
  have hle := MiniNumber.abs_sub_le hc
  rw [TreeNode.getBlockNumber, TreeNode.getBlockNumber, TreeNode.txpow_eq_getElem hx (by omega),
    TreeNode.txpow_eq_getElem hy hj] at hle
  obtain ⟨h1, h2⟩ := h.between hij hj
  rw [abs_of_nonneg (sub_nonneg.mpr h1)] at hle
  have hdiff : c.toRat ≤ (j - i : ℕ) := by
    have := le_abs_self c.toRat
    linarith
  have hint := MiniNumber.getAsInt_le hdiff
  omega

/-- **Blocks behind both windows do not matter:** the difficulty is calculated from the last
`MINIMA_BLOCKS_SPEED_CALC + MEDIAN_BLOCK_CALC` blocks. -/
theorem getBlockDifficulty_of_agree (par : SpeedParams) (s : TimeSort) {a b : TreeNode}
    (h : a.Agree (par.blocksSpeedCalc + par.medianBlockCalc) b) (hnum : NumberedUp a.chain) :
    getBlockDifficulty par s a = getBlockDifficulty par s b := by
  have hmedian := par.median_le
  have hpos := par.median_pos
  have hleft := h.left
  have hparent : a.txpow = b.txpow := h.txpow_eq (by omega)
  rw [getBlockDifficulty, getBlockDifficulty, TreeNode.getBlockNumber, TreeNode.getBlockNumber, hparent]
  split_ifs with h8
  · rfl
  · -- the start median is `i` blocks back on both sides
    obtain ⟨i, hi, hiM, hia, hca⟩ := getMedianTimeBlock_spec s a hpos
    obtain ⟨i', hi', -, -, hcb⟩ := getMedianTimeBlock_spec s b hpos
    have htimes : times par.medianBlockCalc a = times par.medianBlockCalc b := by
      rw [times, times, (h.mono (Nat.le_add_left _ _)).take]
    rw [← htimes, hi, Option.some.injEq] at hi'
    subst hi'
    -- and the end median `j` blocks behind the block where the second window begins
    have hback : (par.blocksSpeedCalc : ℤ).toNat < par.blocksSpeedCalc + par.medianBlockCalc := by
      rw [Int.toNat_natCast]
      omega
    have hend := h.getParentAt hback
    rw [Int.toNat_natCast, Nat.add_sub_cancel_left] at hend
    obtain ⟨j, hj, hjM, hja, hea⟩ :=
      getMedianTimeBlock_spec s (a.getParentAt par.blocksSpeedCalc) hpos
    obtain ⟨j', hj', -, -, heb⟩ := getMedianTimeBlock_spec s (b.getParentAt par.blocksSpeedCalc) hpos
    have htimes' : times par.medianBlockCalc (a.getParentAt par.blocksSpeedCalc) =
        times par.medianBlockCalc (b.getParentAt par.blocksSpeedCalc) := by
      rw [times, times, hend.take]
    rw [← htimes', hj, Option.some.injEq] at hj'
    subst hj'
    have hchain : (a.getParentAt par.blocksSpeedCalc).chain = a.chain.drop par.blocksSpeedCalc := by
      rw [TreeNode.getParentAt, Int.toNat_natCast, TreeNode.chain_parentLoop (by omega)]
    refine difficultyBetween_of_agree hparent (h.drop hca hcb)
      ((hend.drop hea heb).txpow_eq (by omega)) (fun c hc => ?_) (by omega)
    rw [hchain, List.drop_drop] at hea
    exact hnum.sub_lt (by omega) (by omega) (by omega) hca hea hc

/-! ## What comes out between two median blocks -/

/-- Where time went back, the difficulty of the parent is taken. -/
theorem difficultyBetween_of_timeError {par : SpeedParams} {zParent startblock endblock : TreeNode}
    {blockdiff timediff : MiniNumber}
    (hblock : startblock.getBlockNumber.sub endblock.getBlockNumber = .ok blockdiff)
    (htime : startblock.txpow.getTimeMilli.sub endblock.txpow.getTimeMilli = .ok timediff)
    (hle : timediff.isLessEqual .zero = true) :
    difficultyBetween par zParent startblock endblock = .ok zParent.txpow.getBlockDifficulty := by
  rw [difficultyBetween, hblock, Result.ok_bind]
  split_ifs with heq
  · rfl
  · rw [htime, Result.ok_bind, if_pos hle]
    rfl

theorem minTxPoWWork_clamp (newdiff : MiniData) :
    (if newdiff.isMore Magic.minTxPoWWork then Magic.minTxPoWWork else newdiff).getDataValue ≤
      Magic.minTxPoWWork.getDataValue := by
  split_ifs with hmore
  · exact le_rfl
  · exact MiniData.getDataValue_le_of_isMore (Bool.eq_false_iff.mpr hmore)

/-- **A calculated difficulty is never easier than `MIN_TXPOW_WORK`.** -/
theorem difficultyBetween_le {par : SpeedParams} {zParent startblock endblock : TreeNode}
    {timediff : MiniNumber} {difficulty : MiniData}
    (hne : startblock.getBlockNumber.isEqual endblock.getBlockNumber = false)
    (htime : startblock.txpow.getTimeMilli.sub endblock.txpow.getTimeMilli = .ok timediff)
    (hgt : timediff.isLessEqual .zero = false)
    (h : difficultyBetween par zParent startblock endblock = .ok difficulty) :
    difficulty.getDataValue ≤ Magic.minTxPoWWork.getDataValue := by
  rw [difficultyBetween] at h
  obtain ⟨blockdiff, -, h⟩ := Result.bind_eq_ok.mp h
  rw [hne, if_neg Bool.false_ne_true, htime, Result.ok_bind, hgt, if_neg Bool.false_ne_true] at h
  obtain ⟨speed, -, h⟩ := Result.bind_eq_ok.mp h
  obtain ⟨speedratio, -, h⟩ := Result.bind_eq_ok.mp h
  obtain ⟨average, -, h⟩ := Result.bind_eq_ok.mp h
  rw [Result.pure_eq_ok] at h
  exact h ▸ minTxPoWWork_clamp _

/-! ## A chain that shows where the root is -/

/-- A whole number as it is stored. -/
def storedNat (n : ℕ) : StoredNumber :=
  if h : n < 10 ^ 64 then ⟨.ofInt n, MiniNumber.canonical_ofNat h⟩ else TxPoW.oneStored

/-- A block with a number, a time and a difficulty. -/
def timedBlock (number time : ℕ) (difficulty : MiniData) : TxPoW :=
  { TxPoW.sample [0] 0 0 fun _ => MiniData.zeroTxPowID with
    header :=
      { TxPoW.sampleHeader (storedNat number) (storedNat time) fun _ => MiniData.zeroTxPowID with
        blockDifficulty := difficulty } }

theorem getBlockNumber_timedBlock {number : ℕ} (h : number < 10 ^ 64) (time : ℕ)
    (difficulty : MiniData) : (timedBlock number time difficulty).getBlockNumber = .ofInt number := by
  show (storedNat number).val = _
  rw [storedNat, dif_pos h]

theorem getTimeMilli_timedBlock (number : ℕ) {time : ℕ} (h : time < 10 ^ 64)
    (difficulty : MiniData) : (timedBlock number time difficulty).getTimeMilli = .ofInt time := by
  show (storedNat time).val = _
  rw [storedNat, dif_pos h]

/-- The node with the blocks `f 0`, `f 1`, …, `f d` from it back to the root. -/
def nodeOf (f : ℕ → TxPoW) (d : ℕ) : TreeNode := ⟨f 0, (List.range d).map fun k => f (k + 1)⟩

theorem chain_nodeOf (f : ℕ → TxPoW) (d : ℕ) : (nodeOf f d).chain = (List.range (d + 1)).map f := by
  rw [nodeOf, TreeNode.chain, List.range_succ_eq_map, List.map_cons, List.map_map]
  rfl

/-- The node in a tree whose root is `d` blocks behind it. -/
def rootedAt (n : TreeNode) (d : ℕ) : TreeNode := ⟨n.txpow, n.ancestors.take d⟩

theorem chain_rootedAt (n : TreeNode) (d : ℕ) : (rootedAt n d).chain = n.chain.take (d + 1) := rfl

theorem rootedAt_nodeOf (f : ℕ → TxPoW) {c d : ℕ} (h : c ≤ d) : rootedAt (nodeOf f d) c = nodeOf f c := by
  apply TreeNode.chain_injective
  rw [chain_rootedAt, chain_nodeOf, chain_nodeOf, ← List.map_take, List.take_range]
  congr 2
  omega

/-- The root of the tree is so far back that `processTxPoW` takes a child of the block: the number of
the root and `MINIMA_BLOCKS_SPEED_CALC` are at most the number of the block. -/
def InRange (par : SpeedParams) (n : TreeNode) : Prop :=
  ∀ root ∈ n.chain.getLast?, root.getBlockNumber.toRat + par.blocksSpeedCalc ≤ n.getBlockNumber.toRat

theorem getLast?_chain_rootedAt {full : TreeNode} {d : ℕ} (h : d < full.chain.length) :
    (rootedAt full d).chain.getLast? = some full.chain[d] := by
  rw [chain_rootedAt, List.getLast?_eq_getElem?, List.length_take, List.getElem?_take]
  rw [if_pos (by omega), show min (d + 1) full.chain.length - 1 = d by omega]
  exact List.getElem?_eq_getElem h

/-- A chain of consecutive numbers by the times of its blocks, `k` blocks back. -/
def timedChain (number : ℕ) (time : ℕ → ℕ) (difficulty : MiniData) (k : ℕ) : TxPoW :=
  timedBlock (number - k) (time k) difficulty

theorem length_chain_nodeOf (f : ℕ → TxPoW) (d : ℕ) : (nodeOf f d).chain.length = d + 1 := by
  rw [chain_nodeOf, List.length_map, List.length_range]

section TimedChain

variable (time : ℕ → ℕ) (difficulty : MiniData) {number : ℕ} (h : number < 10 ^ 64)

include h

theorem getBlockNumber_timedChain (k : ℕ) :
    (timedChain number time difficulty k).getBlockNumber = .ofInt (number - k : ℕ) :=
  getBlockNumber_timedBlock (by omega) _ _

/-- The numbers are those of a chain, down to the root. -/
theorem numberedUp_timedChain {d : ℕ} (hd : d ≤ number) :
    NumberedUp (nodeOf (timedChain number time difficulty) d).chain where
  next := by
    rw [chain_nodeOf, List.isChain_iff_getElem]
    intro i hi
    rw [List.length_map, List.length_range] at hi
    rw [List.getElem_map, List.getElem_map, List.getElem_range, List.getElem_range,
      getBlockNumber_timedChain _ _ h, getBlockNumber_timedChain _ _ h]
    have hsum : ((number - (i + 1) : ℕ) : ℤ) + 1 = (number - i : ℕ) := by omega
    refine ⟨.ofInt (number - i : ℕ), ?_, by simp⟩
    rw [← hsum]
    refine MiniNumber.ofInt_add_ofInt ?_
    rw [abs_lt]
    omega
  nonneg := by
    intro b hb
    rw [chain_nodeOf] at hb
    obtain ⟨k, -, rfl⟩ := List.mem_map.mp hb
    rw [getBlockNumber_timedChain _ _ h]
    exact Int.natCast_nonneg _

/-- A root that is behind the first window is in range. -/
theorem inRange_timedChain {par : SpeedParams} {d full : ℕ} (hd : par.blocksSpeedCalc ≤ d)
    (hle : d ≤ full) (hfull : full ≤ number) :
    InRange par (rootedAt (nodeOf (timedChain number time difficulty) full) d) := by
  intro root hroot
  have hlen := length_chain_nodeOf (timedChain number time difficulty) full
  rw [getLast?_chain_rootedAt (by omega), Option.mem_some_iff] at hroot
  have hhead : (rootedAt (nodeOf (timedChain number time difficulty) full) d).getBlockNumber =
      (timedChain number time difficulty 0).getBlockNumber := rfl
  rw [← hroot, hhead]
  simp only [chain_nodeOf, List.getElem_map, List.getElem_range]
  rw [getBlockNumber_timedChain _ _ h, getBlockNumber_timedChain _ _ h, MiniNumber.toRat_ofInt,
    MiniNumber.toRat_ofInt]
  exact_mod_cast (show number - d + par.blocksSpeedCalc ≤ number - 0 by omega)

end TimedChain

section Probe

variable (par : SpeedParams) (s : TimeSort) (normal : ℕ → Bool) (number : ℕ)

/-- The easiest of all difficulties. -/
def easiest : MiniData := ⟨List.replicate 32 255⟩

/-- Up to the second window a block has time one; in it, time zero where it is `normal` and time two
where it is not. -/
def probeTime (k : ℕ) : ℕ :=
  if k < par.blocksSpeedCalc then 1 else if normal (k - par.blocksSpeedCalc) then 0 else 2

/-- The chain with these times. -/
def probe : ℕ → TxPoW := timedChain number (probeTime par normal) easiest

theorem getTimeMilli_probe (k : ℕ) :
    (probe par normal number k).getTimeMilli = .ofInt (probeTime par normal k) := by
  refine getTimeMilli_timedBlock _ ?_ _
  unfold probeTime
  split_ifs <;> norm_num

theorem getBlockNumber_probe (h : number < 10 ^ 64) (k : ℕ) :
    (probe par normal number k).getBlockNumber = .ofInt (number - k : ℕ) :=
  getBlockNumber_timedChain _ _ h k

/-- The times that the second window shows in a tree with the root `d` blocks back. -/
theorem times_probe {d : ℕ} (hd : par.blocksSpeedCalc ≤ d) :
    times par.medianBlockCalc ((nodeOf (probe par normal number) d).getParentAt par.blocksSpeedCalc) =
      (List.range (min par.medianBlockCalc (d + 1 - par.blocksSpeedCalc))).map fun p =>
        MiniNumber.ofInt (if normal p then 0 else 2 : ℕ) := by
  have hlen := length_chain_nodeOf (probe par normal number) d
  rw [times, TreeNode.getParentAt, Int.toNat_natCast, TreeNode.chain_parentLoop (by omega), chain_nodeOf]
  apply List.ext_getElem
  · simp
  · intro p h1 h2
    simp only [List.getElem_map, List.getElem_take, List.getElem_drop, List.getElem_range,
      getTimeMilli_probe, probeTime]
    rw [if_neg (by omega), Nat.add_sub_cancel_left]

/-- The blocks of the second window that are `normal`. -/
def normals (d : ℕ) : ℕ :=
  (List.range (min par.medianBlockCalc (d + 1 - par.blocksSpeedCalc))).countP normal

/-- **The median of the second window is a normal block** exactly when more than half of the window
is normal. -/
theorem median_probe {d : ℕ} (hd : par.blocksSpeedCalc ≤ d) :
    ∃ j, j < par.medianBlockCalc ∧ par.blocksSpeedCalc + j ≤ d ∧
      (getMedianTimeBlock s ((nodeOf (probe par normal number) d).getParentAt par.blocksSpeedCalc)
        par.medianBlockCalc).txpow = probe par normal number (par.blocksSpeedCalc + j) ∧
      (normal j = true ↔
        min par.medianBlockCalc (d + 1 - par.blocksSpeedCalc) / 2 < normals par normal d) := by
  set e := (nodeOf (probe par normal number) d).getParentAt par.blocksSpeedCalc with he
  have hlen := length_chain_nodeOf (probe par normal number) d
  have hchain : e.chain = (nodeOf (probe par normal number) d).chain.drop par.blocksSpeedCalc := by
    rw [he, TreeNode.getParentAt, Int.toNat_natCast, TreeNode.chain_parentLoop (by omega)]
  obtain ⟨j, hj, hjM, hje, hmedian⟩ := getMedianTimeBlock_spec s e par.median_pos
  have hjlen : j < d + 1 - par.blocksSpeedCalc := by
    rw [hchain, List.length_drop, hlen] at hje
    exact hje
  refine ⟨j, hjM, by omega, ?_, ?_⟩
  · rw [hchain, List.drop_drop] at hmedian
    rw [TreeNode.txpow_eq_getElem hmedian (by omega)]
    simp only [chain_nodeOf, List.getElem_map, List.getElem_range]
  · rw [times_probe par normal number hd] at hj
    obtain ⟨hlow, hhigh⟩ := s.countP_of_order hj (by simp; omega)
    simp only [List.length_map, List.length_range, List.getElem_map, List.getElem_range,
      List.countP_map, MiniNumber.toRat_ofInt] at hlow hhigh
    rw [normals]
    cases hnormal : normal j with
    | true =>
      simp only [hnormal, if_true] at hhigh
      refine iff_of_true rfl (hhigh.trans_le (List.countP_mono_left fun p _ hp => ?_))
      by_contra hn
      norm_num [hn] at hp
    | false =>
      simp only [hnormal, Bool.false_eq_true, if_false] at hlow
      refine iff_of_false Bool.false_ne_true (not_lt.mpr (le_trans ?_ hlow))
      refine List.countP_mono_left fun p _ hp => ?_
      simp [hp]

/-- **The difficulty shows the root:** it is the parent's own, because of a negative time, exactly when
the median of the second window is not normal. -/
theorem getBlockDifficulty_probe (hn : number < 10 ^ 64) {d : ℕ} (hd : par.blocksSpeedCalc ≤ d)
    (hle : d ≤ number) :
    getBlockDifficulty par s (nodeOf (probe par normal number) d) = .ok easiest ↔
      ¬ min par.medianBlockCalc (d + 1 - par.blocksSpeedCalc) / 2 < normals par normal d := by
  have h8 := par.eight_le
  have hmedian := par.median_le
  have hfirst : ¬ (nodeOf (probe par normal number) d).getBlockNumber.isLess .eight = true := by
    rw [MiniNumber.isLess_iff, not_lt]
    show MiniNumber.eight.toRat ≤ (probe par normal number 0).getBlockNumber.toRat
    rw [getBlockNumber_probe _ _ _ hn, MiniNumber.eight, MiniNumber.toRat_ofInt, MiniNumber.toRat_ofInt]
    exact_mod_cast (show 8 ≤ number - 0 by omega)
  -- the start median is somewhere in the first window, where every time is one
  obtain ⟨i, -, hiM, hilen, hstart⟩ :=
    getMedianTimeBlock_spec s (nodeOf (probe par normal number) d) par.median_pos
  have hi : (getMedianTimeBlock s (nodeOf (probe par normal number) d) par.medianBlockCalc).txpow =
      probe par normal number i := by
    rw [TreeNode.txpow_eq_getElem hstart hilen]
    simp only [chain_nodeOf, List.getElem_map, List.getElem_range]
  have htime : (probe par normal number i).getTimeMilli = .ofInt 1 := by
    rw [getTimeMilli_probe, probeTime, if_pos (by omega)]
    rfl
  obtain ⟨j, hjM, hjd, hj, hiff⟩ := median_probe par s normal number hd
  have hsub : (probe par normal number i).getBlockNumber.sub
      (probe par normal number (par.blocksSpeedCalc + j)).getBlockNumber =
        .ok (.ofInt ((number - i : ℕ) - (number - (par.blocksSpeedCalc + j) : ℕ))) := by
    rw [getBlockNumber_probe _ _ _ hn, getBlockNumber_probe _ _ _ hn]
    refine MiniNumber.ofInt_sub_ofInt ?_
    rw [abs_lt]
    omega
  rw [getBlockDifficulty, if_neg hfirst, ← hiff]
  cases hnormal : normal j with
  | false =>
    refine iff_of_true ?_ Bool.false_ne_true
    have htime' : (probe par normal number (par.blocksSpeedCalc + j)).getTimeMilli = .ofInt 2 := by
      rw [getTimeMilli_probe, probeTime, if_neg (by omega), Nat.add_sub_cancel_left, hnormal]
      rfl
    have hback : (probe par normal number i).getTimeMilli.sub
        (probe par normal number (par.blocksSpeedCalc + j)).getTimeMilli = .ok (.ofInt (-1)) := by
      rw [htime, htime']
      decide
    rw [← hi, ← hj] at hsub hback
    exact difficultyBetween_of_timeError hsub hback (by decide)
  | true =>
    refine iff_of_false (fun h => ?_) (not_not.mpr rfl)
    have htime' : (probe par normal number (par.blocksSpeedCalc + j)).getTimeMilli = .ofInt 0 := by
      rw [getTimeMilli_probe, probeTime, if_neg (by omega), Nat.add_sub_cancel_left, hnormal]
      rfl
    have hne : (probe par normal number i).getBlockNumber.isEqual
        (probe par normal number (par.blocksSpeedCalc + j)).getBlockNumber = false := by
      rw [Bool.eq_false_iff, ne_eq, MiniNumber.isEqual_iff, getBlockNumber_probe _ _ _ hn,
        getBlockNumber_probe _ _ _ hn, MiniNumber.toRat_ofInt, MiniNumber.toRat_ofInt]
      intro heq
      have hnat : number - i = number - (par.blocksSpeedCalc + j) := by exact_mod_cast heq
      omega
    have hforth : (probe par normal number i).getTimeMilli.sub
        (probe par normal number (par.blocksSpeedCalc + j)).getTimeMilli = .ok (.ofInt 1) := by
      rw [htime, htime']
      decide
    rw [← hi, ← hj] at hne hforth
    have hle := difficultyBetween_le hne hforth (by decide) h
    -- but no calculated difficulty is that easy
    exact absurd hle (by decide +kernel)

end Probe

theorem countP_range_lt (c w : ℕ) : (List.range w).countP (fun p => decide (p < c)) = min c w := by
  induction w with
  | zero => simp
  | succ w ih =>
    rw [List.range_succ, List.countP_append, ih, List.countP_singleton]
    split_ifs with h
    · rw [decide_eq_true_eq] at h
      omega
    · rw [decide_eq_true_eq] at h
      omega

/-- **Some pattern of times tells two short windows apart:** in one of them the median is normal, in
the other it is not. -/
theorem exists_normal {w₁ w₂ : ℕ} (hpos : 0 < w₁) (hlt : w₁ < w₂) :
    ∃ normal : ℕ → Bool,
      ¬ (w₁ / 2 < (List.range w₁).countP normal ↔ w₂ / 2 < (List.range w₂).countP normal) := by
  rcases Nat.lt_or_ge (w₁ / 2) (w₂ / 2) with hhalf | hhalf
  · -- just enough normal blocks for the short window
    refine ⟨fun p => decide (p < w₁ / 2 + 1), ?_⟩
    rw [countP_range_lt, countP_range_lt]
    omega
  · -- half of the short window is normal, and so is the one block more of the long window
    obtain rfl : w₂ = w₁ + 1 := by omega
    refine ⟨fun p => decide (p < w₁ / 2) || decide (p = w₁), ?_⟩
    have hshort : (List.range w₁).countP (fun p => decide (p < w₁ / 2) || decide (p = w₁)) =
        min (w₁ / 2) w₁ := by
      rw [← countP_range_lt]
      refine List.countP_congr fun p hp => ?_
      rw [List.mem_range] at hp
      simp [hp.ne]
    have hlong : (List.range (w₁ + 1)).countP (fun p => decide (p < w₁ / 2) || decide (p = w₁)) =
        min (w₁ / 2) w₁ + 1 := by
      rw [List.range_succ, List.countP_append, hshort, List.countP_singleton]
      simp
    rw [hshort, hlong]
    omega

/-- **The property of two roots:** whatever the chain is, the node of its block has the same difficulty
in the trees with a root `d₁` and `d₂` blocks back. -/
def RootsAgree (par : SpeedParams) (s : TimeSort) (d₁ d₂ : ℕ) : Prop :=
  ∀ full : TreeNode, NumberedUp full.chain → max d₁ d₂ < full.chain.length →
    InRange par (rootedAt full d₁) → InRange par (rootedAt full d₂) →
      getBlockDifficulty par s (rootedAt full d₁) = getBlockDifficulty par s (rootedAt full d₂)

/-- In range the root is behind the first window. -/
theorem InRange.le {par : SpeedParams} {full : TreeNode} {d : ℕ} (h : InRange par (rootedAt full d))
    (hnum : NumberedUp full.chain) (hd : d < full.chain.length) : par.blocksSpeedCalc ≤ d := by
  have hroot := h _ (getLast?_chain_rootedAt hd)
  have hbetween := (hnum.between (Nat.zero_le d) hd).2
  have hzero : full.chain[0].getBlockNumber = (rootedAt full d).getBlockNumber := rfl
  rw [hzero, Nat.sub_zero] at hbetween
  have hcast : (par.blocksSpeedCalc : ℚ) ≤ d := by linarith
  exact_mod_cast hcast

/-- Two roots in the second window can be told apart. -/
theorem not_rootsAgree_of_lt (par : SpeedParams) (s : TimeSort) {d₁ d₂ : ℕ}
    (h₁ : par.blocksSpeedCalc ≤ d₁) (hlt : d₁ < d₂) (hn : d₂ < 10 ^ 64)
    (hwindow : d₁ + 1 < par.blocksSpeedCalc + par.medianBlockCalc) : ¬ RootsAgree par s d₁ d₂ := by
  intro h
  have hpos : 0 < min par.medianBlockCalc (d₁ + 1 - par.blocksSpeedCalc) := by omega
  have hshorter : min par.medianBlockCalc (d₁ + 1 - par.blocksSpeedCalc) <
      min par.medianBlockCalc (d₂ + 1 - par.blocksSpeedCalc) := by omega
  obtain ⟨normal, hne⟩ := exists_normal hpos hshorter
  have hlen := length_chain_nodeOf (probe par normal d₂) d₂
  have hsame := h (nodeOf (probe par normal d₂) d₂) (numberedUp_timedChain _ _ hn le_rfl) (by omega)
    (inRange_timedChain _ _ hn h₁ hlt.le le_rfl) (inRange_timedChain _ _ hn (h₁.trans hlt.le) le_rfl le_rfl)
  rw [rootedAt_nodeOf _ hlt.le, rootedAt_nodeOf _ le_rfl] at hsame
  have hleft := getBlockDifficulty_probe par s normal d₂ hn h₁ hlt.le
  have hright := getBlockDifficulty_probe par s normal d₂ hn (h₁.trans hlt.le) le_rfl
  rw [hsame] at hleft
  exact hne (not_iff_not.mp (hleft.symm.trans hright))

theorem RootsAgree.symm {par : SpeedParams} {s : TimeSort} {d₁ d₂ : ℕ} (h : RootsAgree par s d₁ d₂) :
    RootsAgree par s d₂ d₁ := by
  intro full hnum hlen hr₂ hr₁
  rw [max_comm] at hlen
  exact (h full hnum hlen hr₁ hr₂).symm

/-- **Where the root may be:** two roots behind the first window give every block the same difficulty
exactly when they are the same root, or both are behind the second window too. -/
theorem getBlockDifficulty_rootedAt_iff (par : SpeedParams) (s : TimeSort) (d₁ d₂ : ℕ)
    (hlen : max d₁ d₂ < 10 ^ 64) :
    RootsAgree par s d₁ d₂ ↔
      (par.blocksSpeedCalc ≤ d₁ → par.blocksSpeedCalc ≤ d₂ → d₁ ≠ d₂ →
        par.blocksSpeedCalc + par.medianBlockCalc ≤ d₁ + 1 ∧
          par.blocksSpeedCalc + par.medianBlockCalc ≤ d₂ + 1) := by
  constructor
  · intro h h₁ h₂ hne
    by_contra hwindow
    rcases Nat.lt_or_gt_of_ne hne with hlt | hgt
    · exact not_rootsAgree_of_lt par s h₁ hlt (by omega) (by omega) h
    · exact not_rootsAgree_of_lt par s h₂ hgt (by omega) (by omega) h.symm
  · intro h full hnum hfull hr₁ hr₂
    by_cases hne : d₁ = d₂
    · rw [hne]
    · obtain ⟨hw₁, hw₂⟩ := h (hr₁.le hnum (by omega)) (hr₂.le hnum (by omega)) hne
      refine getBlockDifficulty_of_agree par s ⟨?_, ?_, ?_⟩ ?_
      · rw [chain_rootedAt, chain_rootedAt, List.take_take, List.take_take, min_eq_left hw₁,
          min_eq_left hw₂]
      · rw [chain_rootedAt, List.length_take]
        omega
      · rw [chain_rootedAt, List.length_take]
        omega
      · rw [chain_rootedAt]
        exact ⟨hnum.next.take _, fun b hb => hnum.nonneg b (List.mem_of_mem_take hb)⟩

/-- Roots 256 and 319 blocks back may differ, roots 319 and 400 blocks back may not. -/
theorem getBlockDifficulty_rootedAt_iff_sample :
    ¬ RootsAgree .global insertionByTime 256 319 ∧ RootsAgree .global insertionByTime 319 400 := by
  constructor
  · rw [getBlockDifficulty_rootedAt_iff .global insertionByTime 256 319 (by norm_num)]
    decide
  · rw [getBlockDifficulty_rootedAt_iff .global insertionByTime 319 400 (by norm_num)]
    decide

/-! ### Chains to run on -/

def sampleDifficulty : MiniData := ⟨1 :: List.replicate 29 0⟩

/-- Fifty seconds a block in the first window, a hundred before. -/
def slowedDown : ℕ → TxPoW :=
  timedChain 10000 (fun k => 1700000000000 - 50000 * k - 50000 * (k - 256)) sampleDifficulty

/-- Fifty seconds a block, but the blocks 31 and 32 back have the same time. -/
def tiedTimes : TreeNode :=
  nodeOf (timedChain 10000 (fun k => 1700000000000 - 50000 * (if k = 31 then 32 else k))
    sampleDifficulty) 400

/-- Another sort, which puts these two the other way round. -/
def otherByTime : TimeSort :=
  insertionByTime.swap (times 64 tiedTimes) 31 32 (by decide +kernel) (by decide +kernel) (by rfl)

/-- What the two chains come to. -/
theorem sample_difficulties :
    (getBlockDifficulty .global insertionByTime (rootedAt (nodeOf slowedDown 400) 256) =
        .ok sampleDifficulty ∧
      getBlockDifficulty .global insertionByTime (rootedAt (nodeOf slowedDown 400) 400) ≠
        .ok sampleDifficulty) ∧
    (getMedianTimeBlock insertionByTime tiedTimes 64).getBlockNumber = .ofInt 9968 ∧
      (getMedianTimeBlock otherByTime tiedTimes 64).getBlockNumber = .ofInt 9969 ∧
      getBlockDifficulty .global insertionByTime tiedTimes ≠
        getBlockDifficulty .global otherByTime tiedTimes := by
  decide +kernel

/-- **Two roots in range, two difficulties.** Block 10000 has the difficulty of its parent in the tree
that is rooted 256 blocks back, and another one in the tree that is rooted 400 blocks back. -/
theorem getBlockDifficulty_not_rootedAt :
    NumberedUp (nodeOf slowedDown 400).chain ∧
      InRange .global (rootedAt (nodeOf slowedDown 400) 256) ∧
      InRange .global (rootedAt (nodeOf slowedDown 400) 400) ∧
      getBlockDifficulty .global insertionByTime (rootedAt (nodeOf slowedDown 400) 256) =
        .ok sampleDifficulty ∧
      getBlockDifficulty .global insertionByTime (rootedAt (nodeOf slowedDown 400) 400) ≠
        .ok sampleDifficulty := by
  have hnumber : 10000 < 10 ^ 64 := by norm_num
  refine ⟨numberedUp_timedChain _ _ hnumber (by norm_num), ?_, ?_, sample_difficulties.1.1,
    sample_difficulties.1.2⟩
  · exact inRange_timedChain _ _ hnumber (by decide) (by norm_num) (by norm_num)
  · exact inRange_timedChain _ _ hnumber (by decide) (by norm_num) (by norm_num)

/-- **Two sorts, two median blocks**, and two difficulties. -/
theorem getMedianTimeBlock_not_sort :
    (getMedianTimeBlock insertionByTime tiedTimes 64).getBlockNumber = .ofInt 9968 ∧
      (getMedianTimeBlock otherByTime tiedTimes 64).getBlockNumber = .ofInt 9969 ∧
      getBlockDifficulty .global insertionByTime tiedTimes ≠
        getBlockDifficulty .global otherByTime tiedTimes :=
  sample_difficulties.2

end TxPoWGenerator

end Minima
