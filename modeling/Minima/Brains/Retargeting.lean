import Minima.Brains.SuperParents
import Minima.Lib.MedianWindow
import Minima.Objects.MagicChain

/-! # The difficulty is always defined

`getBlockDifficulty` divides by the difference of two times, by a number of blocks and by a speed, all of
them from headers that some miner chose. What keeps it going is that `checkTxPoWBlock` lets no block far
from the median of the blocks behind it.

* **`Built`** — the nodes of a tree that grows by accepted blocks, while its root moves up.
* **`Built.medianRun`** — the times along a branch stay near each other.
* **`getBlockDifficulty_bounds`** — so every node has a difficulty, within the clamped ratio of the
  average and never easier than `MIN_TXPOW_WORK`, as long as the block numbers count. -/

namespace Minima

open MiniNumber

namespace TxPoWGenerator

/-! ## Between the two median blocks -/

/-- The average difficulty of the last `k` blocks. -/
def averageDifficulty (n : TreeNode) (k : ℕ) : ℕ :=
  ((n.chain.take k).map fun b => b.getBlockDifficulty.getDataValue).sum / k

/-- The loop over blocks that are all there. -/
theorem difficultyLoop_eq {k : ℕ} {n : TreeNode} (hk : k ≤ n.chain.length) (total : ℕ) :
    difficultyLoop k (some n) total =
      .ok (total + ((n.chain.take k).map fun b => b.getBlockDifficulty.getDataValue).sum) := by
  induction k generalizing n total with
  | zero => rfl
  | succ k ih =>
    have hchain : n.chain = n.txpow :: n.chain.drop 1 := rfl
    rw [difficultyLoop, hchain, List.take_succ_cons, List.map_cons, List.sum_cons, ← add_assoc]
    cases k with
    | zero => simp [difficultyLoop]
    | succ k =>
      obtain ⟨p, hp, hpc⟩ := TreeNode.getParent_of_lt (n := n) (by omega)
      have hplen : k + 1 ≤ p.chain.length := by
        rw [hpc, List.length_drop]
        omega
      rw [hp, ih hplen, hpc]

/-- A whole number of blocks, as an `int`. -/
theorem getAsInt_eq {a : MiniNumber} {k : ℕ} (h : a.toRat = k) (hk : k < 2 ^ 31) : a.getAsInt = k := by
  have hbig : a.getAsBigInteger = k := by
    rw [getAsBigInteger_eq_floor (by rw [h]; exact Nat.cast_nonneg k), h, Int.floor_natCast]
  unfold getAsInt
  omega

theorem getAverageDifficulty_eq {k : ℕ} {n : TreeNode} {zBlocksBack : MiniNumber}
    (hback : zBlocksBack.toRat = k) (hk : k < 2 ^ 31) (hlen : k ≤ n.chain.length) :
    getAverageDifficulty n zBlocksBack = .ok (averageDifficulty n k) := by
  rw [getAverageDifficulty, getAsInt_eq hback hk, Int.toNat_natCast, difficultyLoop_eq hlen, Result.ok_bind,
    averageDifficulty, zero_add]
  split_ifs with h0
  · rw [h0, Nat.div_zero]
    rfl
  · rfl

/-- **The ratio of the speeds, clamped.** -/
def clampRatio (speedratio : MiniNumber) : MiniNumber :=
  if speedratio.isMore maxSpBound then maxSpBound
  else if speedratio.isLess minSpBound then minSpBound else speedratio

theorem clampRatio_bounds (speedratio : MiniNumber) :
    1 / 2 ≤ (clampRatio speedratio).toRat ∧ (clampRatio speedratio).toRat ≤ 2 := by
  have hmax : maxSpBound.toRat = 2 := by norm_num [maxSpBound, toRat, Decimal.value]
  have hmin : minSpBound.toRat = 1 / 2 := by norm_num [minSpBound, toRat, Decimal.value]
  unfold clampRatio
  split_ifs with hmore hless
  · rw [hmax]
    norm_num
  · rw [hmin]
    norm_num
  · rw [isMore_iff, hmax, not_lt] at hmore
    rw [isLess_iff, hmin, not_lt] at hless
    exact ⟨hless, hmore⟩

/-- What comes out of the average: at least half of it and at most its double. -/
theorem multBigInteger_bounds {ratio : MiniNumber} (h : 1 / 2 ≤ ratio.toRat ∧ ratio.toRat ≤ 2) (average : ℕ) :
    ∃ w : ℕ, ratio.multBigInteger average = w ∧ average / 2 ≤ w ∧ w ≤ 2 * average := by
  have hratio : 0 ≤ ratio.toRat := le_trans (by norm_num) h.1
  have haverage : (0 : ℚ) ≤ average := Nat.cast_nonneg average
  obtain ⟨w, hw⟩ := Int.eq_ofNat_of_zero_le (Int.floor_nonneg.mpr (mul_nonneg hratio haverage))
  refine ⟨w, (multBigInteger_eq_floor hratio average).trans hw, ?_, ?_⟩
  · have hlow : ((average / 2 : ℕ) : ℤ) ≤ ⌊ratio.toRat * average⌋ := by
      rw [Int.le_floor]
      have hhalf : ((average / 2 : ℕ) : ℚ) ≤ average / 2 := Nat.cast_div_le
      push_cast at hhalf ⊢
      calc _ ≤ (average : ℚ) / 2 := hhalf
        _ ≤ ratio.toRat * average := by nlinarith
    omega
  · have hhigh : ⌊ratio.toRat * average⌋ ≤ ((2 * average : ℕ) : ℤ) := by
      have hle : ratio.toRat * average ≤ (2 * average : ℕ) := by
        push_cast
        nlinarith
      exact_mod_cast (Int.floor_le _).trans hle
    omega

/-- The last clamp takes the minimum, as numbers. -/
theorem minTxPoWWork_clamp_eq (w : ℕ) :
    (if (cppIntToMiniData w).isMore Magic.minTxPoWWork then Magic.minTxPoWWork
      else cppIntToMiniData w).getDataValue = min w Magic.minTxPoWWork.getDataValue := by
  have hmin : Magic.minTxPoWWork.getDataValue ≠ 0 := by decide +kernel
  have hiff : (cppIntToMiniData w).isMore Magic.minTxPoWWork = true ↔
      Magic.minTxPoWWork.getDataValue < w := by
    rw [MiniData.isMore, ((cppIntToMiniData w).compare_eq_sign_iff Magic.minTxPoWWork).mpr fun h => hmin h.2.1,
      decide_eq_true_iff, gt_iff_lt, Int.sign_pos_iff, Magic.getDataValue_cppIntToMiniData]
    omega
  split_ifs with h
  · rw [min_eq_right (hiff.mp h).le]
  · rw [Magic.getDataValue_cppIntToMiniData, min_eq_left (not_lt.mp (mt hiff.mpr h))]

/-- **The speed between two blocks** that are `k` blocks apart is not zero: no chain is that slow. -/
theorem exists_getChainSpeed {startblock endblock : TreeNode} {k : ℕ} {zBlocksBack : MiniNumber} (hk : 0 < k)
    (hk' : k ≤ 1000) (hback : zBlocksBack.toRat = k) (hlen : k < startblock.chain.length)
    (hchain : endblock.chain = startblock.chain.drop k)
    (hnum : startblock.getBlockNumber.toRat = endblock.getBlockNumber.toRat + k)
    (hlt : endblock.txpow.getTimeMilli.toRat < startblock.txpow.getTimeMilli.toRat)
    (hnear : startblock.txpow.getTimeMilli.toRat - endblock.txpow.getTimeMilli.toRat ≤ 10 ^ 30) :
    ∃ speed, getChainSpeed startblock zBlocksBack = .ok speed ∧ (10 : ℚ) ^ (-30 : ℤ) ≤ speed.toRat ∧
      speed.toRat < 10 ^ 60 ∧ speed.scale ≤ maxDecimalPlaces := by
  have hpast : startblock.getParentAt zBlocksBack.getAsInt = endblock := by
    apply TreeNode.chain_injective
    rw [getAsInt_eq hback (by omega), TreeNode.getParentAt, Int.toNat_natCast, TreeNode.chain_parentLoop hlen,
      hchain]
  have hkcast : (1 : ℚ) ≤ k ∧ (k : ℚ) ≤ 1000 := by exact_mod_cast And.intro hk hk'
  -- the number of blocks is exact
  obtain ⟨blockdiff, hblock, hblockvalue⟩ := (sub_truncates startblock.getBlockNumber
    endblock.getBlockNumber).exists_ok (by
      rw [hnum, add_sub_cancel_left, abs_of_nonneg (Nat.cast_nonneg k)]
      exact hkcast.2.trans (by norm_num [maxValue]))
  rw [hnum, add_sub_cancel_left, truncated_natCast (by omega)] at hblockvalue
  have hblockscale : -blockdiff.scale < 4 :=
    neg_scale_le_of_lt (k := 4) (by rw [hblockvalue]; linarith) (by rw [hblockvalue]; linarith)
  -- the time is at least one unit, and not too long
  set q := startblock.txpow.getTimeMilli.toRat - endblock.txpow.getTimeMilli.toRat with hq
  have hunit : (10 : ℚ) ^ (-44 : ℤ) ≤ q :=
    startblock.txpow.header.timeMilli.property.zpow_le_sub endblock.txpow.header.timeMilli.property hlt
  have hqpos : 0 < q := lt_of_lt_of_le (by positivity) hunit
  obtain ⟨timediff, htime, htimevalue⟩ := (sub_truncates startblock.txpow.getTimeMilli
    endblock.txpow.getTimeMilli).exists_ok (by
      rw [← hq, abs_of_pos hqpos]
      exact hnear.trans (by norm_num [maxValue]))
  have htimelow : (10 : ℚ) ^ (-44 : ℤ) ≤ timediff.toRat := by
    rw [htimevalue]
    exact zpow_le_truncated le_rfl hunit
  have htimehigh : timediff.toRat ≤ 10 ^ 30 := by
    rw [htimevalue]
    exact (truncated_le hqpos.le).trans hnear
  have htimepos : 0 < timediff.toRat := lt_of_lt_of_le (by positivity) htimelow
  -- blocks for each millisecond, and for each second
  have hquot : blockdiff.toRat / timediff.toRat ≤ 10 ^ 47 := by
    rw [hblockvalue, div_le_iff₀ htimepos]
    calc (k : ℚ) ≤ 1000 := hkcast.2
      _ = 10 ^ 47 * 10 ^ (-44 : ℤ) := by norm_num
      _ ≤ 10 ^ 47 * timediff.toRat := mul_le_mul_of_nonneg_left htimelow (by positivity)
  have hquotlow : (10 : ℚ) ^ (-30 : ℤ) ≤ blockdiff.toRat / timediff.toRat := by
    rw [hblockvalue, le_div_iff₀ htimepos]
    calc (10 : ℚ) ^ (-30 : ℤ) * timediff.toRat ≤ 10 ^ (-30 : ℤ) * 10 ^ 30 :=
          mul_le_mul_of_nonneg_left htimehigh (by positivity)
      _ = 1 := by norm_num
      _ ≤ k := hkcast.1
  obtain ⟨speedmilli, hmilli, -, hmillihigh, hmillilow⟩ := exists_div_eq_ok (a := blockdiff)
    (by rw [hblockvalue]; exact Nat.cast_nonneg k) htimepos (htimehigh.trans_lt (by norm_num))
    (sub_canonical htime).places (hquot.trans (by norm_num [maxValue]))
  have hlow := hmillilow (-30) (by norm_num) (by omega) hquotlow
  have hhigh := hmillihigh.trans hquot
  have hthousand : MiniNumber.thousand.toRat = 1000 := by simp [MiniNumber.thousand]
  have hmillipos : 0 < speedmilli.toRat := lt_of_lt_of_le (by positivity) hlow
  obtain ⟨speed, hspeed, hspeedvalue⟩ := (mult_truncates speedmilli .thousand).exists_ok (by
    rw [hthousand, abs_of_nonneg (by positivity)]
    exact (mul_le_mul_of_nonneg_right hhigh (by norm_num)).trans (by norm_num [maxValue]))
  rw [hthousand] at hspeedvalue
  have hpow : (10 : ℚ) ^ (-30 : ℤ) ≤ speedmilli.toRat * 1000 := by linarith
  refine ⟨speed, ?_, ?_, ?_, (mult_canonical hspeed).places⟩
  · rw [getChainSpeed, hpast]
    exact Result.bind_eq_ok.mpr ⟨blockdiff, hblock, Result.bind_eq_ok.mpr ⟨timediff, htime,
      Result.bind_eq_ok.mpr ⟨speedmilli, hmilli, hspeed⟩⟩⟩
  · rw [hspeedvalue]
    exact zpow_le_truncated (by norm_num) hpow
  · rw [hspeedvalue]
    calc truncated (speedmilli.toRat * 1000) ≤ speedmilli.toRat * 1000 := truncated_le (by positivity)
      _ ≤ 10 ^ 47 * 1000 := mul_le_mul_of_nonneg_right hhigh (by norm_num)
      _ < 10 ^ 60 := by norm_num

/-- **The difficulty between two median blocks** that are `k` blocks apart. -/
theorem exists_difficultyBetween {par : SpeedParams}
    (hspeed : 0 ≤ par.blockSpeed.toRat ∧ par.blockSpeed.toRat ≤ 1) (zParent : TreeNode)
    {startblock endblock : TreeNode} {k : ℕ} (hk : k ≤ 1000) (hlen : k < startblock.chain.length)
    (hchain : endblock.chain = startblock.chain.drop k)
    (hnum : startblock.getBlockNumber.toRat = endblock.getBlockNumber.toRat + k)
    (hnear : |startblock.txpow.getTimeMilli.toRat - endblock.txpow.getTimeMilli.toRat| ≤ 10 ^ 30) :
    ∃ d, difficultyBetween par zParent startblock endblock = .ok d ∧
      (startblock.txpow.getTimeMilli.toRat ≤ endblock.txpow.getTimeMilli.toRat ∧
          d = zParent.txpow.getBlockDifficulty ∨
        endblock.txpow.getTimeMilli.toRat < startblock.txpow.getTimeMilli.toRat ∧ 0 < k ∧
          ∃ w, averageDifficulty startblock k / 2 ≤ w ∧ w ≤ 2 * averageDifficulty startblock k ∧
            d.getDataValue = min w Magic.minTxPoWWork.getDataValue) := by
  have hkcast : (k : ℚ) ≤ 1000 := by exact_mod_cast hk
  obtain ⟨blockdiff, hblock, hblockvalue⟩ := (sub_truncates startblock.getBlockNumber
    endblock.getBlockNumber).exists_ok (by
      rw [hnum, add_sub_cancel_left, abs_of_nonneg (Nat.cast_nonneg k)]
      exact hkcast.trans (by norm_num [maxValue]))
  rw [hnum, add_sub_cancel_left, truncated_natCast (by omega)] at hblockvalue
  obtain ⟨timediff, htime, htimevalue⟩ := (sub_truncates startblock.txpow.getTimeMilli
    endblock.txpow.getTimeMilli).exists_ok (hnear.trans (by norm_num [maxValue]))
  rcases le_or_gt startblock.txpow.getTimeMilli.toRat endblock.txpow.getTimeMilli.toRat with hle | hlt
  · -- the time did not go on
    refine ⟨_, difficultyBetween_of_timeError hblock htime ?_, .inl ⟨hle, rfl⟩⟩
    rw [isLessEqual_iff, toRat_zero, htimevalue]
    exact truncated_nonpos (sub_nonpos.mpr hle)
  · have hk0 : 0 < k := by
      rcases Nat.eq_zero_or_pos k with rfl | h
      · rw [List.drop_zero] at hchain
        rw [TreeNode.chain_injective hchain] at hlt
        exact absurd hlt (lt_irrefl _)
      · exact h
    have hne : startblock.getBlockNumber.isEqual endblock.getBlockNumber = false := by
      rw [Bool.eq_false_iff, ne_eq, isEqual_iff, hnum, add_eq_left]
      exact_mod_cast hk0.ne'
    have hunit : (10 : ℚ) ^ (-44 : ℤ) ≤ timediff.toRat := by
      rw [htimevalue]
      exact zpow_le_truncated le_rfl
        (startblock.txpow.header.timeMilli.property.zpow_le_sub endblock.txpow.header.timeMilli.property hlt)
    have hgt : timediff.isLessEqual .zero = false := by
      rw [Bool.eq_false_iff, ne_eq, isLessEqual_iff, toRat_zero, not_le]
      exact lt_of_lt_of_le (by positivity) hunit
    obtain ⟨speed, hchainspeed, hlow, hhigh, hplaces⟩ := exists_getChainSpeed hk0 hk hblockvalue hlen hchain
      hnum hlt ((le_abs_self _).trans hnear)
    have hspeedpos : 0 < speed.toRat := lt_of_lt_of_le (by positivity) hlow
    obtain ⟨speedratio, hratio, -⟩ := exists_div_eq_ok hspeed.1 hspeedpos hhigh hplaces (by
      rw [div_le_iff₀ hspeedpos]
      calc par.blockSpeed.toRat ≤ 1 := hspeed.2
        _ = 10 ^ 30 * 10 ^ (-30 : ℤ) := by norm_num
        _ ≤ maxValue * speed.toRat :=
            mul_le_mul (by norm_num [maxValue]) hlow (by positivity) (by norm_num [maxValue]))
    obtain ⟨w, hw, hwlow, hwhigh⟩ := multBigInteger_bounds (clampRatio_bounds speedratio)
      (averageDifficulty startblock k)
    refine ⟨_, ?_, .inr ⟨hlt, hk0, w, hwlow, hwhigh, minTxPoWWork_clamp_eq w⟩⟩
    rw [difficultyBetween, hblock, Result.ok_bind, hne, if_neg Bool.false_ne_true, htime, Result.ok_bind, hgt,
      if_neg Bool.false_ne_true, hchainspeed, Result.ok_bind, hratio, Result.ok_bind,
      getAverageDifficulty_eq hblockvalue (by omega) hlen.le, Result.ok_bind, ← hw]
    rfl

/-- `getParent(int)` stops at the root. -/
theorem chain_parentLoop_min (i : ℕ) (n : TreeNode) :
    (TreeNode.parentLoop i n).chain = n.chain.drop (min i (n.chain.length - 1)) := by
  induction i generalizing n with
  | zero => simp [TreeNode.parentLoop]
  | succ i ih =>
    have hpos := n.length_chain_pos
    by_cases hlen : n.chain.length = 1
    · rw [TreeNode.parentLoop, TreeNode.getParent_of_length_eq hlen, hlen]
      simp
    · obtain ⟨p, hp, hpc⟩ := TreeNode.getParent_of_lt (n := n) (by omega)
      rw [TreeNode.parentLoop, hp]
      simp only
      rw [ih, hpc, List.length_drop, List.drop_drop]
      congr 1
      omega

/-- **Where the two median blocks are:** the end is behind the start, and not far behind. -/
theorem exists_medianBlocks (par : SpeedParams) (s : TimeSort) (n : TreeNode) :
    ∃ i k, i + k < n.chain.length ∧ i + k < par.blocksSpeedCalc + par.medianBlockCalc ∧
      (getMedianTimeBlock s n par.medianBlockCalc).chain = n.chain.drop i ∧
      (getMedianTimeBlock s (n.getParentAt par.blocksSpeedCalc) par.medianBlockCalc).chain =
        n.chain.drop (i + k) := by
  have hmedian := par.median_le
  have hpos := n.length_chain_pos
  obtain ⟨i, -, hiM, hilen, hstart⟩ := getMedianTimeBlock_spec s n par.median_pos
  obtain ⟨j, -, hjM, hjlen, hend⟩ :=
    getMedianTimeBlock_spec s (n.getParentAt par.blocksSpeedCalc) par.median_pos
  rw [TreeNode.getParentAt, Int.toNat_natCast] at hjlen
  rw [chain_parentLoop_min, List.length_drop] at hjlen
  have hback : (n.getParentAt par.blocksSpeedCalc).chain =
      n.chain.drop (min par.blocksSpeedCalc (n.chain.length - 1)) := by
    rw [TreeNode.getParentAt, Int.toNat_natCast, chain_parentLoop_min]
  rw [hback, List.drop_drop] at hend
  refine ⟨i, min par.blocksSpeedCalc (n.chain.length - 1) + j - i, by omega, by omega, hstart, ?_⟩
  rw [hend]
  congr 1
  omega

end TxPoWGenerator

/-! ## Accepted blocks -/

namespace TxPoWChecker

open TxPoWGenerator

/-- `CURRENT_NETWORK`, the main net. -/
def currentNetwork : MiniData := ⟨[0]⟩

/-- `MAX_TIME_FUTURE`, a day. -/
def maxTimeFuture : MiniNumber := .ofInt (1000 * 60 * 60 * 24)

/-- **`checkTxPoWBlock`** on a node of the tree, with the cascade behind the tree. The checks of the coins,
the transactions and the MMR come last; `transactions` is their answer. What is thrown is caught, and the
block is not accepted. -/
def checkTxPoWBlock (par : SpeedParams) (s : TimeSort) (cascade : Cascade) (transactions : Result Bool)
    (zParentNode : TreeNode) (zTxPoW : TxPoW) : Result Bool := do
  if !zTxPoW.header.chainID.isEqual currentNetwork then return false
  let number ← zParentNode.getBlockNumber.increment
  if !zTxPoW.getBlockNumber.isEqual number then return false
  if !(← checkParents zParentNode.chain cascade zTxPoW) then return false
  let median := getMedianTimeBlock s zParentNode (par.medianBlockCalc * 2)
  let maxtime ← median.txpow.getTimeMilli.add maxTimeFuture
  if zTxPoW.getTimeMilli.isLess median.txpow.getTimeMilli then return false
  if zTxPoW.getTimeMilli.isMore maxtime then return false
  let blockdifficulty ← getBlockDifficulty par s zParentNode
  if !zTxPoW.getBlockDifficulty.isEqual blockdifficulty then return false
  let newcurrent ← zParentNode.txpow.getMagic.calculateNewCurrent
  if !zTxPoW.getMagic.checkSame newcurrent then return false
  if (zTxPoW.getMagic.getMaxNumTxns.getAsInt % 2 ^ 64).toNat < zTxPoW.getBlockTransactions.length then
    return false
  transactions

/-- **What an accepted block has met**, as far as its number, its time and its difficulty go. -/
structure Meets (par : SpeedParams) (s : TimeSort) (n : TreeNode) (b : TxPoW) : Prop where
  number : ∃ number, n.getBlockNumber.increment = .ok number ∧ b.getBlockNumber.toRat = number.toRat
  low : (getMedianTimeBlock s n (par.medianBlockCalc * 2)).txpow.getTimeMilli.toRat ≤ b.getTimeMilli.toRat
  high : ∃ maxtime, (getMedianTimeBlock s n (par.medianBlockCalc * 2)).txpow.getTimeMilli.add maxTimeFuture =
    .ok maxtime ∧ b.getTimeMilli.toRat ≤ maxtime.toRat
  difficulty : getBlockDifficulty par s n = .ok b.getBlockDifficulty

/-- A check that is passed. -/
theorem passed {c : Prop} [Decidable c] {rest : Result Bool}
    (h : (if c then pure false else rest) = (.ok true : Result Bool)) : ¬ c ∧ rest = .ok true := by
  split_ifs at h with hc
  · cases h
  · exact ⟨hc, h⟩

theorem meets_of_accepted {par : SpeedParams} {s : TimeSort} {cascade : Cascade} {transactions : Result Bool}
    {n : TreeNode} {b : TxPoW} (h : checkTxPoWBlock par s cascade transactions n b = .ok true) :
    Meets par s n b := by
  rw [checkTxPoWBlock] at h
  obtain ⟨-, h⟩ := passed h
  obtain ⟨number, hnumber, h⟩ := Result.bind_eq_ok.mp h
  obtain ⟨hequal, h⟩ := passed h
  obtain ⟨parents, -, h⟩ := Result.bind_eq_ok.mp h
  obtain ⟨-, h⟩ := passed h
  obtain ⟨maxtime, hmax, h⟩ := Result.bind_eq_ok.mp h
  obtain ⟨hless, h⟩ := passed h
  obtain ⟨hmore, h⟩ := passed h
  obtain ⟨d, hd, h⟩ := Result.bind_eq_ok.mp h
  obtain ⟨heq, -⟩ := passed h
  rw [isLess_iff, not_lt] at hless
  rw [isMore_iff, not_lt] at hmore
  rw [Bool.not_eq_true', Bool.not_eq_false, MiniData.isEqual_iff] at heq
  rw [Bool.not_eq_true', Bool.not_eq_false, isEqual_iff] at hequal
  exact ⟨⟨number, hnumber, hequal⟩, hless, ⟨maxtime, hmax, hmore⟩, heq ▸ hd⟩

end TxPoWChecker

namespace TxPoWGenerator

open TxPoWChecker

/-- **The nodes of a tree that grows:** it starts with some block, a block that is accepted on a node
becomes its child, and the root moves up to a node further on. -/
inductive Built (par : SpeedParams) (s : TimeSort) (first : TxPoW → Prop) : TreeNode → Prop
  | root {b : TxPoW} (h : first b) : Built par s first ⟨b, []⟩
  | add {n : TreeNode} {b : TxPoW} {cascade : Cascade} {transactions : Result Bool} (h : Built par s first n)
    (accepted : checkTxPoWBlock par s cascade transactions n b = .ok true) : Built par s first ⟨b, n.chain⟩
  | cut {n : TreeNode} (d : ℕ) (h : Built par s first n) : Built par s first (rootedAt n d)

/-- How far above the median a time can be: a day, and what `MiniNumber` adds to a negative sum. -/
def timeJump : ℚ := 2 * 10 ^ 15

/-- **The history behind a node:** all blocks of its branch since the start, with the times near their
medians. Position `first` is the root of the tree by now, position `last` the node. -/
structure History (par : SpeedParams) (n : TreeNode) (block : ℕ → TxPoW) (start : ℕ → ℕ) (first last : ℕ) :
    Prop where
  le : first ≤ last
  chain : n.chain = (List.range (last + 1 - first)).map fun i => block (last - i)
  start_le : start last ≤ max first (last - 2 * par.medianBlockCalc)
  run : MedianRun (fun i => (block i).getTimeMilli.toRat) start (2 * par.medianBlockCalc) timeJump last

theorem History.length {par : SpeedParams} {n : TreeNode} {block : ℕ → TxPoW} {start : ℕ → ℕ} {first last : ℕ}
    (h : History par n block start first last) : n.chain.length = last + 1 - first := by
  rw [h.chain, List.length_map, List.length_range]

theorem History.getElem {par : SpeedParams} {n : TreeNode} {block : ℕ → TxPoW} {start : ℕ → ℕ}
    {first last : ℕ} (h : History par n block start first last) {i : ℕ} (hi : i < n.chain.length) :
    n.chain[i] = block (last - i) := by
  simp only [h.chain, List.getElem_map, List.getElem_range]

/-- Counting backwards from the last position. -/
theorem countP_range_sub (p : ℕ → Prop) [DecidablePred p] {last w : ℕ} (h : w ≤ last + 1) :
    (List.range w).countP (fun i => decide (p (last - i))) =
      ((Finset.Ico (last + 1 - w) (last + 1)).filter p).card := by
  induction w with
  | zero => simp
  | succ w ih =>
    have hinsert : Finset.Ico (last + 1 - (w + 1)) (last + 1) =
        insert (last - w) (Finset.Ico (last + 1 - w) (last + 1)) := by
      ext j
      rw [Finset.mem_insert, Finset.mem_Ico, Finset.mem_Ico]
      omega
    have hnot : last - w ∉ (Finset.Ico (last + 1 - w) (last + 1)).filter p := by
      rw [Finset.mem_filter, Finset.mem_Ico]
      omega
    rw [List.range_succ, List.countP_append, ih (by omega), List.countP_singleton, hinsert,
      Finset.filter_insert]
    by_cases hp : p (last - w)
    · rw [if_pos hp, Finset.card_insert_of_notMem hnot, if_pos (decide_eq_true hp)]
    · rw [if_neg hp, if_neg (by simpa using hp), add_zero]

/-- **The median that the checker takes**, as the median of positions. -/
theorem History.isMedian {par : SpeedParams} {s : TimeSort} {n : TreeNode} {block : ℕ → TxPoW}
    {start : ℕ → ℕ} {first last : ℕ} (h : History par n block start first last) :
    IsMedian (fun i => (block i).getTimeMilli.toRat)
      (Finset.Ico (max first (last + 1 - 2 * par.medianBlockCalc)) (last + 1))
      (getMedianTimeBlock s n (par.medianBlockCalc * 2)).txpow.getTimeMilli.toRat := by
  have hpos := par.median_pos
  have hlen := h.length
  have hle := h.le
  obtain ⟨i, hi, hik, hilen, hmedian⟩ :=
    getMedianTimeBlock_spec s n (k := par.medianBlockCalc * 2) (by omega)
  push_cast at hmedian
  have htimes : times (par.medianBlockCalc * 2) n =
      (List.range (min (par.medianBlockCalc * 2) (last + 1 - first))).map fun i =>
        (block (last - i)).getTimeMilli := by
    rw [times, h.chain, ← List.map_take, List.take_range, List.map_map]
    rfl
  have hwindow : max first (last + 1 - 2 * par.medianBlockCalc) =
      last + 1 - min (par.medianBlockCalc * 2) (last + 1 - first) := by omega
  rw [TreeNode.txpow_eq_getElem hmedian hilen, h.getElem hilen]
  set w := min (par.medianBlockCalc * 2) (last + 1 - first) with hw
  have hiw : i < w := by omega
  have hcard : (Finset.Ico (last + 1 - w) (last + 1)).card = w := by
    rw [Nat.card_Ico]
    omega
  obtain ⟨hlow, hhigh⟩ := s.countP_of_order hi (by rw [htimes]; simpa using hiw)
  simp only [htimes, List.getElem_map, List.getElem_range, List.countP_map, List.length_map,
    List.length_range] at hlow hhigh
  rw [hwindow]
  refine ⟨⟨last - i, Finset.mem_Ico.mpr ⟨by omega, by omega⟩, rfl⟩, ?_, ?_⟩
  · rw [hcard, ← countP_range_sub _ (by omega)]
    exact hlow
  · rw [hcard, ← countP_range_sub _ (by omega)]
    exact hhigh

/-- A time that the checker accepts is at most a jump above the median. -/
theorem le_add_timeJump {m maxtime : MiniNumber} (hm : m.Canonical) (h : m.add maxTimeFuture = .ok maxtime) :
    maxtime.toRat ≤ m.toRat + timeJump := by
  have hday : maxTimeFuture.toRat = 86400000 := by norm_num [maxTimeFuture]
  have hbound := abs_le.mp hm.bound
  have hmax : ((maxValue : ℤ) : ℚ) ≤ 10 ^ 78 - 86400000 := by norm_num [maxValue]
  rw [(add_truncates m maxTimeFuture).toRat_eq h, hday, timeJump]
  have hle : truncated (m.toRat + 86400000) ≤ m.toRat + 86400000 + 10 ^ 15 := by
    refine truncated_le_add (abs_le.mpr ⟨?_, ?_⟩)
    · linarith [hbound.1]
    · linarith [hbound.2]
  linarith

/-- A tree of one block. -/
theorem history_root (par : SpeedParams) (b : TxPoW) :
    History par ⟨b, []⟩ (fun _ => b) (fun _ => 0) 0 0 where
  le := le_rfl
  chain := rfl
  start_le := Nat.zero_le _
  run := ⟨⟨fun _ _ _ _ => le_rfl, fun i hi hil => absurd hi (by omega), fun i hi => by omega⟩,
    fun i hi hil => absurd hi (by omega)⟩

/-- The root moves up. -/
theorem History.cut {par : SpeedParams} {n : TreeNode} {block : ℕ → TxPoW} {start : ℕ → ℕ} {first last : ℕ}
    (h : History par n block start first last) (d : ℕ) :
    History par (rootedAt n d) block start (max first (last - d)) last where
  le := by
    have := h.le
    omega
  chain := by
    have hle := h.le
    rw [chain_rootedAt, h.chain, ← List.map_take, List.take_range]
    congr 2
    omega
  start_le := by
    have := h.start_le
    omega
  run := h.run

/-- A block comes in. -/
theorem History.add {par : SpeedParams} {s : TimeSort} {n : TreeNode} {block : ℕ → TxPoW} {start : ℕ → ℕ}
    {first last : ℕ} (h : History par n block start first last) {b : TxPoW} (hb : Meets par s n b) :
    History par ⟨b, n.chain⟩ (Function.update block (last + 1) b)
      (Function.update start (last + 1) (max first (last + 1 - 2 * par.medianBlockCalc))) first
      (last + 1) where
  le := by
    have := h.le
    omega
  chain := by
    have hle := h.le
    have hlen : last + 1 + 1 - first = last + 1 - first + 1 := by omega
    rw [TreeNode.chain, h.chain, hlen, List.range_succ_eq_map, List.map_cons, List.map_map, Nat.sub_zero,
      Function.update_self]
    congr 1
    refine List.map_congr_left fun i hi => ?_
    rw [Function.comp_apply, Function.update_of_ne (by omega)]
    congr 1
    omega
  start_le := by rw [Function.update_self]
  run := by
    have hpos := par.median_pos
    have hle := h.le
    have hstart := h.start_le
    obtain ⟨maxtime, hmax, hhigh⟩ := hb.high
    have hjump := le_add_timeJump
      (getMedianTimeBlock s n (par.medianBlockCalc * 2)).txpow.header.timeMilli.property hmax
    have hrun := h.run.extend (by omega) (by omega) (by omega) (h.isMedian (s := s)) hb.low
      (hhigh.trans hjump)
    have hvalue : (fun i => (Function.update block (last + 1) b i).getTimeMilli.toRat) =
        Function.update (fun i => (block i).getTimeMilli.toRat) (last + 1) b.getTimeMilli.toRat := by
      funext i
      by_cases hi : i = last + 1
      · rw [hi, Function.update_self, Function.update_self]
      · rw [Function.update_of_ne hi, Function.update_of_ne hi]
    rw [hvalue]
    exact hrun

/-- **Every node of a tree that grows has a history.** -/
theorem Built.exists_history {par : SpeedParams} {s : TimeSort} {first : TxPoW → Prop} {n : TreeNode}
    (h : Built par s first n) : ∃ block start f l, History par n block start f l := by
  induction h with
  | @root b hb => exact ⟨_, _, _, _, history_root par b⟩
  | add hn accepted ih =>
    obtain ⟨block, start, f, l, hist⟩ := ih
    exact ⟨_, _, _, _, hist.add (meets_of_accepted accepted)⟩
  | cut d hn ih =>
    obtain ⟨block, start, f, l, hist⟩ := ih
    exact ⟨_, _, _, _, hist.cut d⟩

/-- **Times of a branch are near each other.** -/
theorem Built.abs_time_sub_le {par : SpeedParams} {s : TimeSort} {first : TxPoW → Prop} {n : TreeNode}
    (h : Built par s first n) (hmedian : par.medianBlockCalc ≤ 64) {i k : ℕ}
    (hik : i + k < n.chain.length) (hk : k ≤ 1000) :
    |n.chain[i].getTimeMilli.toRat - n.chain[i + k].getTimeMilli.toRat| ≤ 10 ^ 30 := by
  obtain ⟨block, start, f, l, hist⟩ := h.exists_history
  have hlen := hist.length
  rw [hist.getElem (by omega), hist.getElem hik]
  have hsplit : l - i = l - (i + k) + k := by omega
  have hnear := hist.run.abs_sub_le_mul (by norm_num [timeJump]) (i := l - (i + k)) (d := k) (by omega)
  rw [← hsplit] at hnear
  refine hnear.trans ?_
  have hsize : 2 * par.medianBlockCalc ≤ 128 := by omega
  generalize 2 * par.medianBlockCalc = size at hsize ⊢
  have hsquare : size * size ≤ 16384 := (Nat.mul_le_mul hsize hsize).trans (by norm_num)
  have hfactor : size * size + 2 * size + 3 ≤ 16643 := by linarith
  have hproduct : k * (size * size + 2 * size + 3) ≤ 16643000 :=
    (Nat.mul_le_mul hk hfactor).trans (by norm_num)
  have hrat : (k : ℚ) * (size * size + 2 * size + 3) ≤ 16643000 := by exact_mod_cast hproduct
  rw [← mul_assoc, timeJump]
  linarith

/-! ## Every node has a difficulty -/

/-- A block is **not easier** than `MIN_TXPOW_WORK`, unless it is one of the first, whose difficulty nobody
asks for. -/
def NotEasier (b : TxPoW) : Prop :=
  b.getBlockNumber.isLess .eight = true ∨ b.getBlockDifficulty.getDataValue ≤ Magic.minTxPoWWork.getDataValue

/-- What comes out is the difficulty of the parent, or not easier than `MIN_TXPOW_WORK`. -/
theorem eq_or_le_of_difficultyBetween {par : SpeedParams} {zParent startblock endblock : TreeNode}
    {d : MiniData} (h : difficultyBetween par zParent startblock endblock = .ok d) :
    d = zParent.txpow.getBlockDifficulty ∨ d.getDataValue ≤ Magic.minTxPoWWork.getDataValue := by
  cases hsame : startblock.getBlockNumber.isEqual endblock.getBlockNumber with
  | true =>
    rw [difficultyBetween] at h
    obtain ⟨blockdiff, -, h⟩ := Result.bind_eq_ok.mp h
    rw [if_pos hsame, Result.pure_eq_ok] at h
    exact .inl h.symm
  | false =>
    have hrun := h
    rw [difficultyBetween] at h
    obtain ⟨blockdiff, hblock, h⟩ := Result.bind_eq_ok.mp h
    rw [hsame, if_neg Bool.false_ne_true] at h
    obtain ⟨timediff, htime, -⟩ := Result.bind_eq_ok.mp h
    cases hle : timediff.isLessEqual .zero with
    | true =>
      rw [difficultyBetween_of_timeError hblock htime hle, Except.ok.injEq] at hrun
      exact .inl hrun.symm
    | false => exact .inr (difficultyBetween_le hsame htime hle hrun)

theorem getBlockDifficulty_le {par : SpeedParams} {s : TimeSort} {n : TreeNode} {d : MiniData}
    (hn : NotEasier n.txpow) (h : getBlockDifficulty par s n = .ok d) :
    d.getDataValue ≤ Magic.minTxPoWWork.getDataValue := by
  rw [getBlockDifficulty] at h
  split_ifs at h with h8
  · rw [Except.ok.injEq] at h
    rw [← h]
  · rcases eq_or_le_of_difficultyBetween h with rfl | hle
    · exact hn.resolve_left h8
    · exact hle

/-- **No block of the tree is easier** than the minimum, once the first is not. -/
theorem Built.notEasier {par : SpeedParams} {s : TimeSort} {n : TreeNode} (h : Built par s NotEasier n) :
    NotEasier n.txpow := by
  induction h with
  | root hb => exact hb
  | add hn accepted ih => exact .inr (getBlockDifficulty_le ih (meets_of_accepted accepted).difficulty)
  | cut d hn ih => exact ih

/-- **The block numbers count**: each is one more than the number of the parent. -/
def CountsUp (chain : List TxPoW) : Prop :=
  chain.IsChain fun b p => b.getBlockNumber.toRat = p.getBlockNumber.toRat + 1

/-- A block number is **whole**. -/
def WholeNumber (b : TxPoW) : Prop := ∃ m : ℕ, b.getBlockNumber.toRat = m

/-- **Whole numbers count up to 64 digits.** -/
theorem Built.countsUp {par : SpeedParams} {s : TimeSort} {n : TreeNode} (h : Built par s WholeNumber n)
    (hn : n.getBlockNumber.toRat < 10 ^ 64) : CountsUp n.chain ∧ WholeNumber n.txpow := by
  induction h with
  | root hb => exact ⟨List.isChain_singleton _, hb⟩
  | @add n b _ _ hb accepted ih =>
    obtain ⟨number, hnumber, heq⟩ := (meets_of_accepted accepted).number
    have hvalue := (add_truncates n.getBlockNumber .one).toRat_eq hnumber
    have hb64 : b.getBlockNumber.toRat < 10 ^ 64 := hn
    rw [heq, hvalue, toRat_one] at hb64
    -- the number of the parent is smaller yet
    have hsmall : n.getBlockNumber.toRat + 1 < 10 ^ 64 := by
      by_contra hle
      have hkeep := zpow_le_truncated (l := 64) (by norm_num) (by exact_mod_cast not_lt.mp hle)
      exact absurd hb64 (not_lt.mpr (by exact_mod_cast hkeep))
    obtain ⟨hcount, m, hm⟩ := ih (by linarith)
    have hm' : n.getBlockNumber.toRat = m := hm
    have hnext : b.getBlockNumber.toRat = (m + 1 : ℕ) := by
      rw [hm'] at hsmall
      have hlt : m + 1 < 10 ^ 64 := by exact_mod_cast hsmall
      rw [heq, hvalue, toRat_one, hm', ← truncated_natCast hlt]
      push_cast
      rfl
    refine ⟨List.isChain_cons_cons.mpr ⟨?_, hcount⟩, _, hnext⟩
    rw [hnext, hm]
    push_cast
    rfl
  | cut d hb ih =>
    obtain ⟨hcount, hwhole⟩ := ih hn
    exact ⟨List.IsChain.take hcount (d + 1), hwhole⟩

/-- What holds of the first block may be weakened. -/
theorem Built.mono {par : SpeedParams} {s : TimeSort} {first first' : TxPoW → Prop} {n : TreeNode}
    (h : Built par s first n) (himp : ∀ b, first b → first' b) : Built par s first' n := by
  induction h with
  | root hb => exact .root (himp _ hb)
  | add hn accepted ih => exact .add ih accepted
  | cut d hn ih => exact .cut d ih

theorem CountsUp.getElem_add {chain : List TxPoW} (h : CountsUp chain) {i k : ℕ} (hik : i + k < chain.length) :
    chain[i].getBlockNumber.toRat = chain[i + k].getBlockNumber.toRat + k := by
  induction k with
  | zero => simp
  | succ k ih =>
    have hnext := List.isChain_iff_getElem.mp h (i + k) hik
    rw [ih (by omega), hnext, Nat.cast_succ, add_assoc, add_comm (1 : ℚ)]
    rfl

/-- **What the difficulty is:** the minimum for the first blocks, the difficulty of the parent where the
time did not go on between the two median blocks, and else at least half and at most the double of the
average difficulty between them, cut off at the minimum. -/
def Retargeted (par : SpeedParams) (s : TimeSort) (n : TreeNode) (d : MiniData) : Prop :=
  let startblock := getMedianTimeBlock s n par.medianBlockCalc
  let endblock := getMedianTimeBlock s (n.getParentAt par.blocksSpeedCalc) par.medianBlockCalc
  if n.getBlockNumber.toRat < 8 then d = Magic.minTxPoWWork
  else if startblock.txpow.getTimeMilli.toRat ≤ endblock.txpow.getTimeMilli.toRat then
    d = n.txpow.getBlockDifficulty
  else ∃ k, 0 < k ∧ endblock.chain = startblock.chain.drop k ∧
    ∃ w, averageDifficulty startblock k / 2 ≤ w ∧ w ≤ 2 * averageDifficulty startblock k ∧
      d.getDataValue = min w Magic.minTxPoWWork.getDataValue

/-- The two median blocks of a node, by what is needed of them. -/
theorem Built.exists_retargeted {par : SpeedParams} {s : TimeSort} {first : TxPoW → Prop} {n : TreeNode}
    (h : Built par s first n) (hcount : CountsUp n.chain) (hmedian : par.medianBlockCalc ≤ 64)
    (hblocks : par.blocksSpeedCalc ≤ 256) (hspeed : 0 ≤ par.blockSpeed.toRat ∧ par.blockSpeed.toRat ≤ 1) :
    ∃ d, getBlockDifficulty par s n = .ok d ∧ Retargeted par s n d := by
  have hless : n.getBlockNumber.isLess .eight = true ↔ n.getBlockNumber.toRat < 8 := by
    simp [MiniNumber.eight]
  rw [getBlockDifficulty]
  by_cases h8 : n.getBlockNumber.toRat < 8
  · rw [if_pos (hless.mpr h8)]
    refine ⟨_, rfl, ?_⟩
    rw [Retargeted, if_pos h8]
  · rw [if_neg (mt hless.mp h8)]
    obtain ⟨i, k, hik, hwindow, hstart, hend⟩ := exists_medianBlocks par s n
    have hchain : (getMedianTimeBlock s (n.getParentAt par.blocksSpeedCalc) par.medianBlockCalc).chain =
        (getMedianTimeBlock s n par.medianBlockCalc).chain.drop k := by
      rw [hend, hstart, List.drop_drop]
    have hlen : k < (getMedianTimeBlock s n par.medianBlockCalc).chain.length := by
      rw [hstart, List.length_drop]
      omega
    have hnum := hcount.getElem_add hik
    have hnear := h.abs_time_sub_le hmedian hik (by omega)
    rw [← TreeNode.txpow_eq_getElem hstart (by omega), ← TreeNode.txpow_eq_getElem hend hik] at hnum hnear
    obtain ⟨d, hd, hcases⟩ := exists_difficultyBetween hspeed n (by omega) hlen hchain hnum hnear
    refine ⟨d, hd, ?_⟩
    rw [Retargeted, if_neg h8]
    rcases hcases with ⟨hle, heq⟩ | ⟨hlt, hk, w, hw⟩
    · rw [if_pos hle]
      exact heq
    · rw [if_neg (not_le.mpr hlt)]
      exact ⟨k, hk, hchain, w, hw⟩

/-- **Every node has a difficulty**, on the main net and on the test net, and however `std::sort` arranges
equal times: it is in its bounds, and never easier than the minimum. -/
theorem getBlockDifficulty_bounds (par : SpeedParams) (hpar : par = .global ∨ par = .test) (s : TimeSort)
    {n : TreeNode} (h : Built par s NotEasier n) (hcount : CountsUp n.chain) :
    ∃ d, getBlockDifficulty par s n = .ok d ∧ Retargeted par s n d ∧
      d.getDataValue ≤ Magic.minTxPoWWork.getDataValue := by
  have hsizes : par.medianBlockCalc ≤ 64 ∧ par.blocksSpeedCalc ≤ 256 := by
    rcases hpar with rfl | rfl <;> decide
  have hspeed : 0 ≤ par.blockSpeed.toRat ∧ par.blockSpeed.toRat ≤ 1 := by
    rcases hpar with rfl | rfl <;>
      norm_num [SpeedParams.global, SpeedParams.test, toRat, Decimal.value]
  obtain ⟨d, hd, hbounds⟩ := h.exists_retargeted hcount hsizes.1 hsizes.2 hspeed
  exact ⟨d, hd, hbounds, getBlockDifficulty_le h.notEasier hd⟩

/-! ### Trees to run on -/

/-- A block with a number, a time and a difficulty, and the default limits. -/
def plainBlock (number : StoredNumber) (time : ℕ) (difficulty : MiniData) : TxPoW :=
  { timedBlock 0 0 difficulty with
    header :=
      { TxPoW.sampleHeader number (storedNat time) fun _ => MiniData.zeroTxPowID with
        blockDifficulty := difficulty
        magic := Magic.defaults } }

/-- Half the sample difficulty. -/
def harder : MiniData := ⟨128 :: List.replicate 28 0⟩

/-- Three blocks on a root, a millisecond each, with some numbers. -/
def threeBlocks (number : ℕ → StoredNumber) : TreeNode where
  txpow := plainBlock (number 3) 3 harder
  ancestors := [plainBlock (number 2) 2 harder, plainBlock (number 1) 1 sampleDifficulty,
    plainBlock (number 0) 0 sampleDifficulty]

/-- The numbers from 100 on. -/
def counting : ℕ → StoredNumber := fun k => storedNat (100 + k)

/-- The last number of 64 digits, and then one that is its own next number. -/
def saturated : ℕ → StoredNumber
  | 0 => storedNat (10 ^ 64 - 1)
  | _ + 1 => ⟨⟨10 ^ 63, -1⟩, by decide⟩

/-- A block without transactions, in a tree without a cascade. -/
theorem Built.next {par : SpeedParams} {s : TimeSort} {first : TxPoW → Prop} {n : TreeNode}
    (h : Built par s first n) (b : TxPoW)
    (accepted : checkTxPoWBlock par s Cascade.empty (.ok true) n b = .ok true) : Built par s first ⟨b, n.chain⟩ :=
  .add h accepted

theorem built_counting :
    Built .global insertionByTime (fun b => NotEasier b ∧ WholeNumber b) (threeBlocks counting) := by
  have hroot : Built .global insertionByTime (fun b => NotEasier b ∧ WholeNumber b)
      ⟨plainBlock (counting 0) 0 sampleDifficulty, []⟩ :=
    .root ⟨.inr (by decide +kernel), 100, toRat_ofInt 100⟩
  have hone := hroot.next (plainBlock (counting 1) 1 sampleDifficulty) (by decide +kernel)
  have htwo := hone.next (plainBlock (counting 2) 2 harder) (by decide +kernel)
  exact htwo.next (plainBlock (counting 3) 3 harder) (by decide +kernel)

theorem built_saturated : Built .global insertionByTime NotEasier (threeBlocks saturated) := by
  have hroot : Built .global insertionByTime NotEasier ⟨plainBlock (saturated 0) 0 sampleDifficulty, []⟩ :=
    .root (.inr (by decide +kernel))
  have hone := hroot.next (plainBlock (saturated 1) 1 sampleDifficulty) (by decide +kernel)
  have htwo := hone.next (plainBlock (saturated 2) 2 harder) (by decide +kernel)
  exact htwo.next (plainBlock (saturated 3) 3 harder) (by decide +kernel)

theorem countsUp_counting : CountsUp (threeBlocks counting).chain := by
  have hnumber : (threeBlocks counting).getBlockNumber.toRat = (103 : ℤ) := toRat_ofInt 103
  refine ((built_counting.mono fun b hb => hb.2).countsUp ?_).1
  rw [hnumber]
  norm_num

/-- Three blocks in three milliseconds make the next block as hard as it gets. -/
theorem getBlockDifficulty_bounds_counting :
    ∃ d, getBlockDifficulty .global insertionByTime (threeBlocks counting) = .ok d ∧
      Retargeted .global insertionByTime (threeBlocks counting) d ∧
        d.getDataValue ≤ Magic.minTxPoWWork.getDataValue :=
  getBlockDifficulty_bounds .global (.inl rfl) insertionByTime (built_counting.mono fun _ hb => hb.1)
    countsUp_counting

/-- **Where the numbers do not count the speed can be zero**, and a root that is too easy stays so. -/
theorem not_getBlockDifficulty_bounds :
    Built .global insertionByTime NotEasier (threeBlocks saturated) ∧
      getBlockDifficulty .global insertionByTime (threeBlocks saturated) = throwException "Division by zero" ∧
      Built .global insertionByTime (fun _ => True) ⟨timedBlock 8 0 easiest, []⟩ ∧
      getBlockDifficulty .global insertionByTime ⟨timedBlock 8 0 easiest, []⟩ = .ok easiest ∧
      Magic.minTxPoWWork.getDataValue < easiest.getDataValue :=
  ⟨built_saturated, by decide +kernel, .root trivial, by decide +kernel, by decide +kernel⟩

end TxPoWGenerator

end Minima
