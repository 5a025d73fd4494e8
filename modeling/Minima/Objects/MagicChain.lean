import Minima.Base.Arithmetic
import Minima.Brains.Difficulty

/-! # The `Magic` limits along a chain

A block asks for limits of its own, and the next block has to have the limits that `calculateNewCurrent`
makes of the current and the desired ones: a weighted average in which the desired value counts for one
part in 16384, after it was brought to between half and twice the current one.

* **`Magic.calculateNewCurrent`** — the limits of the next block.
* **`Magic.Follows`** — a block has the limits that its parent leads to.
* **`Magic.chain_inBounds`** — whatever the blocks ask for, the limits stay in their bounds. -/

namespace Minima

open MiniNumber
open TxPoWGenerator (storedNat)

/-- `Crypto::MAX_HASH`. -/
def Crypto.MAX_HASH : MiniData := ⟨List.replicate 32 0xFF⟩

namespace Magic

/-! ## The next limits -/

/-- `CALC_WEIGHTED`. -/
def calcWeighted : ℕ := 16383

/-- `CALC_TOTAL`. -/
def calcTotal : ℕ := 16384

/-- `MINMAX_TXPOW_SIZE`, the default as well. -/
def minMaxTxPoWSize : ℕ := 64 * 1024

/-- `MINMAX_KISSVM_OPERATIONS`, the default as well. -/
def minMaxKISSVMOperations : ℕ := 1024

/-- `MINMAX_TXPOW_TXNS`, the default as well. -/
def minMaxTxPoWTxns : ℕ := 256

/-- The desired value, brought between `min` and `max`. -/
def clampDesired (min max desired : MiniNumber) : Result MiniNumber :=
  if desired.isLess min then min.copy
  else if desired.isMore max then max.copy
  else .ok desired

/-- The hard minimum limit. -/
def hardMinimum (minMax : ℕ) (desired : MiniNumber) : Result MiniNumber :=
  if desired.isLess (ofInt minMax) then (ofInt minMax).copy else .ok desired

/-- One of the three numbers of `calculateNewCurrent`, with its hard minimum. -/
def newLimit (minMax : ℕ) (current desired : MiniNumber) : Result MiniNumber := do
  let min ← current.div .two
  let max ← current.mult .two
  let desired ← clampDesired min max desired
  let desired ← hardMinimum minMax desired
  let weighted ← current.mult (ofInt calcWeighted)
  let sum ← weighted.add desired
  sum.div (ofInt calcTotal)

/-- The work of `calculateNewCurrent`, as integers. -/
def newWork (oldval desired : ℕ) : ℕ :=
  let minval := oldval / 2
  let maxval := oldval * 2
  let newval := if desired < minval then minval else if maxval < desired then maxval else desired
  -- a smaller value is more work
  let newval := if minTxPoWVal < newval then minTxPoWVal else newval
  (oldval * calcWeighted + newval) / calcTotal

/-- The limits of the constructor. -/
def defaults : Magic where
  currentMaxTxPoWSize := storedNat minMaxTxPoWSize
  currentMaxKISSVMOps := storedNat minMaxKISSVMOperations
  currentMaxTxnPerBlock := storedNat minMaxTxPoWTxns
  currentMinTxPoWWork := minTxPoWWork
  desiredMaxTxPoWSize := storedNat minMaxTxPoWSize
  desiredMaxKISSVMOps := storedNat minMaxKISSVMOperations
  desiredMaxTxnPerBlock := storedNat minMaxTxPoWTxns
  desiredMinTxPoWWork := minTxPoWWork

/-- **`calculateNewCurrent`**; what the next block asks for is left at the defaults. -/
def calculateNewCurrent (m : Magic) : Result Magic := do
  let size ← newLimit minMaxTxPoWSize m.currentMaxTxPoWSize.val m.desiredMaxTxPoWSize.val
  let size ← size.stored
  let ops ← newLimit minMaxKISSVMOperations m.currentMaxKISSVMOps.val m.desiredMaxKISSVMOps.val
  let ops ← ops.stored
  let txns ← newLimit minMaxTxPoWTxns m.currentMaxTxnPerBlock.val m.desiredMaxTxnPerBlock.val
  let txns ← txns.stored
  let work := newWork m.currentMinTxPoWWork.getDataValue m.desiredMinTxPoWWork.getDataValue
  return { defaults with
    currentMaxTxPoWSize := size
    currentMaxKISSVMOps := ops
    currentMaxTxnPerBlock := txns
    currentMinTxPoWWork := cppIntToMiniData work }

/-- A block on `parent` has these limits, as `checkTxPoWBlock` compares them. -/
def Follows (parent child : Magic) : Prop :=
  ∃ m, parent.calculateNewCurrent = .ok m ∧ child.checkSame m = true

/-! ## One number -/

section Number

variable {minMax : ℕ} {current desired new : MiniNumber}

theorem copy_le {x y : MiniNumber} (hx : 0 ≤ x.toRat) (h : x.copy = .ok y) : y.toRat ≤ x.toRat := by
  have hle := abs_toRat_checked_le h
  rw [abs_of_nonneg hx] at hle
  exact (le_abs_self _).trans hle

theorem clampDesired_le {min max d : MiniNumber} {b : ℚ} (hmin : 0 ≤ min.toRat) (hminle : min.toRat ≤ b)
    (hmax : 0 ≤ max.toRat) (hmaxle : max.toRat ≤ b) (h : clampDesired min max desired = .ok d) :
    d.toRat ≤ b := by
  unfold clampDesired at h
  split_ifs at h with hless hmore
  · exact (copy_le hmin h).trans hminle
  · exact (copy_le hmax h).trans hmaxle
  · cases h
    rw [isMore_iff, not_lt] at hmore
    exact hmore.trans hmaxle

theorem hardMinimum_bounds {d : MiniNumber} {b : ℚ} (hmin : minMax < 10 ^ 50) (hb : (minMax : ℚ) ≤ b)
    (hle : desired.toRat ≤ b) (h : hardMinimum minMax desired = .ok d) :
    (minMax : ℚ) ≤ d.toRat ∧ d.toRat ≤ b := by
  unfold hardMinimum at h
  split_ifs at h with hless
  · rw [copy_of_canonical (canonical_ofNat (hmin.trans (by norm_num))), Except.ok.injEq] at h
    subst h
    rw [toRat_ofInt, Int.cast_natCast]
    exact ⟨le_rfl, hb⟩
  · cases h
    rw [isLess_iff, not_lt, toRat_ofInt, Int.cast_natCast] at hless
    exact ⟨hless, hle⟩

/-- **A limit stays at or above its minimum**, and changes by no more than one part in 8192. -/
theorem newLimit_bounds (hmin : 2 ≤ minMax) (hmax : minMax < 10 ^ 50)
    (hcurrent : (minMax : ℚ) ≤ current.toRat) (h : newLimit minMax current desired = .ok new) :
    (minMax : ℚ) ≤ new.toRat ∧ 16384 * new.toRat ≤ 16385 * current.toRat ∧
      16382 * current.toRat ≤ 16384 * new.toRat := by
  obtain ⟨min, hdiv, h⟩ := Result.bind_eq_ok.mp h
  obtain ⟨max, hmult, h⟩ := Result.bind_eq_ok.mp h
  obtain ⟨d, hd, h⟩ := Result.bind_eq_ok.mp h
  obtain ⟨d', hd', h⟩ := Result.bind_eq_ok.mp h
  obtain ⟨weighted, hweighted, h⟩ := Result.bind_eq_ok.mp h
  obtain ⟨sum, hsum, hnew⟩ := Result.bind_eq_ok.mp h
  have htwo : (2 : ℚ) ≤ current.toRat := le_trans (by exact_mod_cast hmin) hcurrent
  have hmin' : (2 : ℚ) ≤ minMax := by exact_mod_cast hmin
  -- the desired value is between the minimum and twice the current one
  obtain ⟨hminle, -, hminge⟩ := div_ofInt_bounds (n := 2) (by norm_num) (by norm_num) (by exact_mod_cast htwo) hdiv
  have hminpos := hminge 0 (by norm_num) (by positivity)
  have hmax' := (mult_truncates current .two).toRat_eq hmult
  have htwoRat : MiniNumber.two.toRat = 2 := by simp [MiniNumber.two]
  rw [htwoRat] at hmax'
  have hmaxle : max.toRat ≤ 2 * current.toRat := by
    rw [hmax', mul_comm]
    exact truncated_le (by positivity)
  have hmaxpos : ((0 : ℕ) : ℚ) ≤ max.toRat := by
    rw [hmax']
    exact natCast_le_truncated (by norm_num) (by positivity)
  push_cast at hminle hminpos hmaxpos
  have hdle : d.toRat ≤ 2 * current.toRat :=
    clampDesired_le hminpos (by linarith) hmaxpos hmaxle hd
  obtain ⟨hdmin, hdmax⟩ := hardMinimum_bounds hmax (by linarith) hdle hd'
  -- the weighted sum, cut twice
  have hw := (mult_truncates current (ofInt calcWeighted)).toRat_eq hweighted
  have hs := (add_truncates weighted d').toRat_eq hsum
  rw [toRat_ofInt, Int.cast_natCast, calcWeighted] at hw
  have hwle : weighted.toRat ≤ current.toRat * 16383 := by
    rw [hw]
    exact truncated_le (by positivity)
  have hwlt := lt_truncated_add (q := current.toRat * (16383 : ℕ)) (by push_cast; linarith)
  have hwmin : ((minMax * 16383 : ℕ) : ℚ) ≤ weighted.toRat := by
    rw [hw]
    refine natCast_le_truncated (by omega) ?_
    push_cast
    gcongr
  rw [← hw] at hwlt
  push_cast at hwlt hwmin
  have hsle : sum.toRat ≤ weighted.toRat + d'.toRat := by
    rw [hs]
    exact truncated_le (by linarith)
  have hslt := lt_truncated_add (q := weighted.toRat + d'.toRat) (by linarith)
  have hsmin : ((minMax * 16384 : ℕ) : ℚ) ≤ sum.toRat := by
    rw [hs]
    refine natCast_le_truncated (by omega) ?_
    push_cast
    linarith
  rw [← hs] at hslt
  push_cast at hsmin
  obtain ⟨hle, hlt, hwhole⟩ := div_ofInt_bounds (n := calcTotal) (by decide) (by decide)
    (by rw [calcTotal]; push_cast; linarith) hnew
  have hnewmin := hwhole minMax (hmax.trans (by norm_num)) (by
    rw [calcTotal, le_div_iff₀ (by norm_num)]
    push_cast
    linarith)
  rw [calcTotal] at hle hlt
  push_cast at hle hlt
  norm_num at hlt hslt hwlt
  refine ⟨hnewmin, by linarith, ?_⟩
  linarith

end Number

/-! ## The work -/

theorem newWork_le {oldval : ℕ} (desired : ℕ) (h : oldval ≤ minTxPoWVal) :
    newWork oldval desired ≤ minTxPoWVal := by
  simp only [newWork, calcWeighted, calcTotal]
  split_ifs <;> omega

/-- **The work changes by a factor of two at most**, and in fact by far less; as whole numbers, so that
one can become zero. -/
theorem newWork_bounds {oldval : ℕ} (desired : ℕ) (h : oldval ≤ minTxPoWVal) :
    newWork oldval desired ≤ 2 * oldval ∧ oldval / 2 ≤ newWork oldval desired ∧
      (oldval ≤ 2 * newWork oldval desired ∨ oldval = 1 ∧ desired = 0 ∧ newWork oldval desired = 0) := by
  simp only [newWork, calcWeighted, calcTotal]
  split_ifs <;> omega

theorem getDataValue_cppIntToMiniData (n : ℕ) : (cppIntToMiniData n).getDataValue = n := by
  unfold cppIntToMiniData
  by_cases h : n = 0
  · rw [if_pos (by exact_mod_cast h), h]
    rfl
  · rw [if_neg (by exact_mod_cast h), if_neg (by omega), Int.toNat_natCast]
    exact TwosComplement.ofBytesBE_bytesBE_of_lt (Nat.lt_pow_succ_log_self (by norm_num) n)

/-! ## Along a chain -/

/-- **The bounds:** the hard minimum of each number, and the hard minimum of the work, which is the
largest value. -/
structure InBounds (m : Magic) : Prop where
  size : (minMaxTxPoWSize : ℚ) ≤ m.currentMaxTxPoWSize.val.toRat
  ops : (minMaxKISSVMOperations : ℚ) ≤ m.currentMaxKISSVMOps.val.toRat
  txns : (minMaxTxPoWTxns : ℚ) ≤ m.currentMaxTxnPerBlock.val.toRat
  work : m.currentMinTxPoWWork.getDataValue ≤ minTxPoWWork.getDataValue

/-- At most the double, and at least the half. -/
def WithinTwo (a b : ℚ) : Prop := b ≤ 2 * a ∧ a ≤ 2 * b

/-- **The numbers** move by a factor of two at most. -/
structure NumbersMove (parent child : Magic) : Prop where
  size : WithinTwo parent.currentMaxTxPoWSize.val.toRat child.currentMaxTxPoWSize.val.toRat
  ops : WithinTwo parent.currentMaxKISSVMOps.val.toRat child.currentMaxKISSVMOps.val.toRat
  txns : WithinTwo parent.currentMaxTxnPerBlock.val.toRat child.currentMaxTxnPerBlock.val.toRat

/-- **The work** moves by a factor of two at most. -/
def WorkMoves (parent child : Magic) : Prop :=
  WithinTwo parent.currentMinTxPoWWork.getDataValue child.currentMinTxPoWWork.getDataValue

/-- The one way to leave the factor two: work of one, the hardest that there is, goes to zero when zero
is desired. -/
def WorkVanishes (parent child : Magic) : Prop :=
  parent.currentMinTxPoWWork.getDataValue = 1 ∧ parent.desiredMinTxPoWWork.getDataValue = 0 ∧
    child.currentMinTxPoWWork.getDataValue = 0

theorem toRat_stored {x : MiniNumber} {y : StoredNumber} (hx : x.Canonical) (h : x.stored = .ok y) :
    y.val.toRat = x.toRat := by
  unfold stored at h
  split at h
  · next z hz =>
    rw [copy_of_canonical hx, Except.ok.injEq] at hz
    cases h
    exact congrArg toRat hz.symm
  · cases h

/-- A limit that was calculated and stored. -/
theorem stored_newLimit_bounds {minMax : ℕ} {current desired new : MiniNumber} {y : StoredNumber}
    (hmin : 2 ≤ minMax) (hmax : minMax < 10 ^ 50) (hcurrent : (minMax : ℚ) ≤ current.toRat)
    (h : newLimit minMax current desired = .ok new) (hy : new.stored = .ok y) :
    (minMax : ℚ) ≤ y.val.toRat ∧ WithinTwo current.toRat y.val.toRat := by
  have hcanonical : new.Canonical := by
    obtain ⟨_, -, h⟩ := Result.bind_eq_ok.mp h
    obtain ⟨_, -, h⟩ := Result.bind_eq_ok.mp h
    obtain ⟨_, -, h⟩ := Result.bind_eq_ok.mp h
    obtain ⟨_, -, h⟩ := Result.bind_eq_ok.mp h
    obtain ⟨_, -, h⟩ := Result.bind_eq_ok.mp h
    obtain ⟨_, -, h⟩ := Result.bind_eq_ok.mp h
    exact div_canonical h
  obtain ⟨hge, hup, hdown⟩ := newLimit_bounds hmin hmax hcurrent h
  have hpos : (0 : ℚ) ≤ minMax := Nat.cast_nonneg _
  rw [toRat_stored hcanonical hy]
  exact ⟨hge, by linarith, by linarith⟩

/-- **One block:** in bounds, and moved by a factor of two at most. -/
theorem Follows.inBounds {parent child : Magic} (h : Follows parent child) (hp : parent.InBounds) :
    child.InBounds ∧ NumbersMove parent child ∧ (WorkMoves parent child ∨ WorkVanishes parent child) := by
  obtain ⟨m, hm, hsame⟩ := h
  obtain ⟨size, hsize, hm⟩ := Result.bind_eq_ok.mp hm
  obtain ⟨size', hsize', hm⟩ := Result.bind_eq_ok.mp hm
  obtain ⟨ops, hops, hm⟩ := Result.bind_eq_ok.mp hm
  obtain ⟨ops', hops', hm⟩ := Result.bind_eq_ok.mp hm
  obtain ⟨txns, htxns, hm⟩ := Result.bind_eq_ok.mp hm
  obtain ⟨txns', htxns', hm⟩ := Result.bind_eq_ok.mp hm
  rw [Result.pure_eq_ok] at hm
  subst hm
  simp only [checkSame, Bool.and_eq_true, isEqual_iff, MiniData.isEqual_iff] at hsame
  obtain ⟨⟨⟨hcsize, hcops⟩, hctxns⟩, hcwork⟩ := hsame
  obtain ⟨hsize1, hsize2⟩ := stored_newLimit_bounds (by decide) (by decide) hp.size hsize hsize'
  obtain ⟨hops1, hops2⟩ := stored_newLimit_bounds (by decide) (by decide) hp.ops hops hops'
  obtain ⟨htxns1, htxns2⟩ := stored_newLimit_bounds (by decide) (by decide) hp.txns htxns htxns'
  rw [← hcsize] at hsize1 hsize2
  rw [← hcops] at hops1 hops2
  rw [← hctxns] at htxns1 htxns2
  have hwork := hp.work
  rw [minTxPoWWork, getDataValue_cppIntToMiniData] at hwork
  have hle := newWork_le parent.desiredMinTxPoWWork.getDataValue hwork
  obtain ⟨hup, -, hdown⟩ := newWork_bounds parent.desiredMinTxPoWWork.getDataValue hwork
  have hcdata := congrArg MiniData.getDataValue hcwork
  rw [getDataValue_cppIntToMiniData] at hcdata
  rw [← hcdata] at hle hup hdown
  refine ⟨⟨hsize1, hops1, htxns1, ?_⟩, ⟨hsize2, hops2, htxns2⟩, hdown.imp (fun hdown => ⟨?_, ?_⟩) id⟩
  · rwa [minTxPoWWork, getDataValue_cppIntToMiniData]
  · exact_mod_cast hup
  · exact_mod_cast hdown

/-- **The limits along a chain.** Whatever the blocks desire: every current number is at or above its
minimum and the work is never easier than the hard minimum; and each block moves each of them by a factor
of two at most, apart from work of one that may go to zero. -/
theorem chain_inBounds {chain : List Magic} (h : chain.IsChain Follows)
    (hstart : ∀ m ∈ chain.head?, m.InBounds) :
    (∀ m ∈ chain, m.InBounds) ∧
      chain.IsChain fun parent child =>
        NumbersMove parent child ∧ (WorkMoves parent child ∨ WorkVanishes parent child) := by
  induction h with
  | nil => exact ⟨by simp, .nil⟩
  | singleton m => exact ⟨by simpa using hstart, .singleton m⟩
  | @cons_cons parent child rest hfollows hrest ih =>
    have hparent : parent.InBounds := hstart parent rfl
    obtain ⟨hchild, hmove⟩ := hfollows.inBounds hparent
    obtain ⟨hall, hmoves⟩ := ih fun m hm => by
      rw [List.head?_cons, Option.mem_some_iff] at hm
      exact hm ▸ hchild
    exact ⟨List.forall_mem_cons.mpr ⟨hparent, hall⟩, .cons_cons hmove hmoves⟩

/-! ## A chain that works itself to zero -/

/-- The defaults with some work, asking for work zero. -/
def demanding (work : ℕ) : Magic :=
  { defaults with
    currentMinTxPoWWork := cppIntToMiniData work
    desiredMinTxPoWWork := ⟨[0]⟩ }

/-- A limit at its minimum that asks for the minimum stays there. -/
def StaysAt (minMax : ℕ) : Prop :=
  ∃ x y, newLimit minMax (storedNat minMax).val (storedNat minMax).val = .ok x ∧ x.stored = .ok y ∧
    (storedNat minMax).val.isEqual y.val = true

theorem staysAt_size : StaysAt minMaxTxPoWSize :=
  ⟨⟨65536 * 10 ^ 44, 44⟩, ⟨⟨65536 * 10 ^ 44, 44⟩, by decide +kernel⟩, by decide +kernel, by decide +kernel,
    by decide +kernel⟩

theorem staysAt_ops : StaysAt minMaxKISSVMOperations :=
  ⟨⟨1024 * 10 ^ 44, 44⟩, ⟨⟨1024 * 10 ^ 44, 44⟩, by decide +kernel⟩, by decide +kernel, by decide +kernel,
    by decide +kernel⟩

theorem staysAt_txns : StaysAt minMaxTxPoWTxns :=
  ⟨⟨256 * 10 ^ 44, 44⟩, ⟨⟨256 * 10 ^ 44, 44⟩, by decide +kernel⟩, by decide +kernel, by decide +kernel,
    by decide +kernel⟩

/-- From block to block only the work changes. -/
theorem follows_demanding (work : ℕ) : Follows (demanding work) (demanding (newWork work 0)) := by
  obtain ⟨size, size', hsize, hsize', hsame⟩ := staysAt_size
  obtain ⟨ops, ops', hops, hops', hsame'⟩ := staysAt_ops
  obtain ⟨txns, txns', htxns, htxns', hsame''⟩ := staysAt_txns
  have hwork : newWork (demanding work).currentMinTxPoWWork.getDataValue
      (demanding work).desiredMinTxPoWWork.getDataValue = newWork work 0 := by
    rw [demanding, getDataValue_cppIntToMiniData]
    rfl
  refine ⟨{ defaults with
    currentMaxTxPoWSize := size'
    currentMaxKISSVMOps := ops'
    currentMaxTxnPerBlock := txns'
    currentMinTxPoWWork := cppIntToMiniData (newWork work 0) }, ?_, ?_⟩
  · rw [calculateNewCurrent, hwork]
    simp only [demanding, defaults, hsize, hsize', hops, hops', htxns, htxns', Result.ok_bind]
    rfl
  · simp only [checkSame, demanding, defaults, hsame, hsame', hsame'', Bool.and_self, Bool.true_and]
    exact (MiniData.isEqual_iff _ _).mpr rfl

/-- The work after so many blocks that ask for work zero. -/
def workAfter (blocks : ℕ) : ℕ := (fun work => newWork work 0)^[blocks] minTxPoWVal

theorem workAfter_succ (blocks : ℕ) : workAfter (blocks + 1) = newWork (workAfter blocks) 0 :=
  Function.iterate_succ_apply' _ _ _

/-- It goes down block by block, as long as there is some. -/
theorem newWork_zero_lt {work : ℕ} (h : 0 < work) : newWork work 0 < work := by
  simp only [newWork, calcWeighted, calcTotal]
  split_ifs <;> omega

/-- The first of these blocks has the limits of the constructor. -/
theorem checkSame_demanding : (demanding (workAfter 0)).checkSame defaults = true := by
  simp only [checkSame, demanding, defaults, isEqual_iff, MiniData.isEqual_iff, Bool.and_eq_true]
  exact ⟨⟨⟨trivial, trivial⟩, trivial⟩, rfl⟩

theorem inBounds_demanding : (demanding (workAfter 0)).InBounds where
  size := by simp [demanding, defaults, storedNat, minMaxTxPoWSize]
  ops := by simp [demanding, defaults, storedNat, minMaxKISSVMOperations]
  txns := by simp [demanding, defaults, storedNat, minMaxTxPoWTxns]
  work := le_rfl

/-- The chain of these blocks. -/
def demandingChain (blocks : ℕ) : List Magic :=
  (List.range (blocks + 1)).map fun k => demanding (workAfter k)

theorem isChain_demandingChain (blocks : ℕ) : (demandingChain blocks).IsChain Follows := by
  rw [demandingChain, List.isChain_iff_getElem]
  intro i hi
  rw [List.getElem_map, List.getElem_map, List.getElem_range, List.getElem_range, workAfter_succ]
  exact follows_demanding _

theorem head_demandingChain (blocks : ℕ) : (demandingChain blocks).head? = some (demanding (workAfter 0)) := by
  rw [demandingChain, List.range_succ_eq_map, List.map_cons, List.head?_cons]

/-- **A factor of two does not hold for the work on all chains** from the limits of the constructor: the
work becomes zero after finitely many blocks. -/
theorem not_chain_moves :
    ¬ ∀ chain : List Magic, chain.IsChain Follows → (∀ m ∈ chain.head?, m.checkSame defaults = true) →
      chain.IsChain fun parent child => NumbersMove parent child ∧ WorkMoves parent child := by
  intro h
  have hmoves : ∀ k, workAfter k ≤ 2 * workAfter (k + 1) := by
    intro k
    have hchain := h _ (isChain_demandingChain (k + 1)) (by
      intro m hm
      rw [head_demandingChain, Option.mem_some_iff] at hm
      exact hm ▸ checkSame_demanding)
    rw [demandingChain, List.isChain_iff_getElem] at hchain
    have hk := (hchain k (by simp)).2.2
    rw [List.getElem_map, List.getElem_map, List.getElem_range, List.getElem_range, demanding, demanding,
      getDataValue_cppIntToMiniData, getDataValue_cppIntToMiniData] at hk
    exact_mod_cast hk
  have hdown : ∀ k, 0 < workAfter k ∧ workAfter k + k ≤ minTxPoWVal := by
    intro k
    induction k with
    | zero => exact ⟨by decide, le_rfl⟩
    | succ k ih =>
      obtain ⟨hpos, hle⟩ := ih
      have hlt := newWork_zero_lt hpos
      have hmove := hmoves k
      rw [← workAfter_succ] at hlt
      omega
  have hend := (hdown (minTxPoWVal + 1)).2
  omega

/-- The bounds on the first blocks of that chain. -/
theorem chain_inBounds_demanding :
    (∀ m ∈ demandingChain 1, m.InBounds) ∧
      (demandingChain 1).IsChain fun parent child =>
        NumbersMove parent child ∧ (WorkMoves parent child ∨ WorkVanishes parent child) :=
  chain_inBounds (isChain_demandingChain 1) fun m hm => by
    rw [head_demandingChain, Option.mem_some_iff] at hm
    exact hm ▸ inBounds_demanding

end Magic

end Minima
