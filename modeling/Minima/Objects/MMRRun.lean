import Minima.Mmr.InRange
import Minima.Objects.MegaMMR

/-! # Runs over an `MMR`

What the node does to one MMR, in any order: it reads the MMR from a stream, sets entries, changes leaves,
appends leaves, and builds it from blocks.

* **`MMRStep`** — a single call. **`MMROperation`** — a call of the node, as a sequence of steps.
* **`MMROperation.constructMMR_eq`**, **`MMROperation.addBlock_eq`** — the steps of a block are the functions
  of the node.
* **`MMROperation.run_inRange`** — while every step meets its condition, the table is used in range. -/

namespace Minima

/-- A call on an MMR. The data of a leaf is calculated before the call, and that may throw; the data of a
new leaf depends on the entry number that it gets. -/
inductive MMRStep where
  | readDataStream (s : List Byte)
  | new
  | setFinalized (finalized : Bool)
  | setBlockTime (time : MiniNumber)
  | setEntry (row : ℤ) (e : MMREntryNumber) (d : Result MMRData)
  | calculateEntryNumberFromPeaks
  | updateEntry (e : MMREntryNumber) (proof : MMRProof) (d : Result MMRData)
  | addEntry (d : MMREntryNumber → Result MMRData)
  | finalizeSet
  | getRootData

namespace MMRStep

/-- Perform the call on the MMR. An MMR of a block that is being built, or of a MegaMMR, has no parent. -/
def perform (C : Crypto) (m : MMR) : MMRStep → Noting MMR
  | readDataStream s => MMR.readDataStreamNoted C s
  | new => pure MMR.new
  | setFinalized finalized => pure { m with finalized }
  | setBlockTime time => do
    let blockTime ← .lift time.copy
    return { m with blockTime }
  | setEntry row e d => do
    let d ← .lift d
    let set ← m.setEntryNoted row e d
    return set.1
  | calculateEntryNumberFromPeaks => m.calculateEntryNumberFromPeaksNoted
  | updateEntry e proof d => do
    let d ← .lift d
    m.updateEntryNoted C .none e proof d
  | addEntry d => do
    let d ← .lift (d m.entryNumber)
    let added ← m.addEntryNoted C .none d
    return added.1
  | finalizeSet => m.finalizeSetNoted C
  | getRootData => do
    let root ← m.getRootNoted C
    match root with
    | none => .lift (undefinedBehaviour "null root")
    | some _ => return m

/-- **The condition on a step**, in the MMR before it. A finalized MMR does not use its table. -/
def InRange (m : MMR) : MMRStep → Prop
  | readDataStream s => MMR.StreamInRange s
  | setEntry row e _ => m.finalized = true ∨ (TableUse.mk row e).InRange
  | updateEntry e proof _ => m.finalized = true ∨ m.Reachable .none e proof
  | addEntry _ => m.finalized = true ∨ m.HasRoom
  | _ => True

/-- **A step that meets its condition** uses the table in range, and leaves everything in range. -/
theorem perform_keeps {C : Crypto} {m : MMR} {step : MMRStep} (hm : m.Bounded) (h : step.InRange m) :
    (step.perform C m).Keeps TableUse.InRange MMR.Bounded := by
  cases step with
  | readDataStream s => exact MMR.readDataStreamNoted_keeps h
  | new => exact Noted.Keeps.pure MMR.bounded_new
  | setFinalized finalized => exact Noted.Keeps.pure (hm.congr rfl rfl rfl)
  | setBlockTime time =>
    apply Noted.Keeps.lift_bind
    intro blockTime _
    exact Noted.Keeps.pure (hm.congr rfl rfl rfl)
  | setEntry row e d =>
    apply Noted.Keeps.lift_bind
    intro d _
    apply (MMR.setEntryNoted_keeps d hm h).bind
    rintro set - ⟨hset, -, -⟩
    exact Noted.Keeps.pure hset
  | calculateEntryNumberFromPeaks => exact MMR.calculateEntryNumberFromPeaksNoted_keeps hm
  | updateEntry e proof d =>
    apply Noted.Keeps.lift_bind
    intro d _
    exact MMR.updateEntryNoted_keeps d hm h
  | addEntry d =>
    apply Noted.Keeps.lift_bind
    intro d _
    apply (MMR.addEntryNoted_keeps d hm h).bind
    rintro added - ⟨hadded, -, -⟩
    exact Noted.Keeps.pure hadded
  | finalizeSet => exact MMR.finalizeSetNoted_keeps hm
  | getRootData =>
    apply (MMR.getRootNoted_keeps hm).bind
    intro root _ _
    cases root with
    | none => exact Noted.Keeps.lift fun a ha => absurd ha (by simp)
    | some _ => exact Noted.Keeps.pure hm

/-- Perform steps one after the other. -/
def run (C : Crypto) : MMR → List MMRStep → Noting MMR
  | m, [] => pure m
  | m, step :: steps => do
    let m ← step.perform C m
    run C m steps

/-- **Every step meets its condition**, in the MMR that the steps before it have made. -/
def AllInRange (C : Crypto) : MMR → List MMRStep → Prop
  | _, [] => True
  | m, step :: steps =>
    step.InRange m ∧ ∀ m', (step.perform C m).outcome = .ok m' → AllInRange C m' steps

theorem run_append (C : Crypto) (m : MMR) (steps steps' : List MMRStep) :
    (run C m (steps ++ steps')).outcome =
      (run C m steps).outcome >>= fun m' => (run C m' steps').outcome := by
  induction steps generalizing m with
  | nil => rfl
  | cons step steps ih =>
    rw [List.cons_append, run, run, Noted.outcome_bind, Noted.outcome_bind, bind_assoc]
    congr 1
    funext m'
    exact ih m'

theorem run_singleton (C : Crypto) (m : MMR) (step : MMRStep) :
    (run C m [step]).outcome = (step.perform C m).outcome := by
  rw [run, Noted.outcome_bind]
  exact bind_pure _

/-- **A run whose steps meet their conditions** uses the table in range. -/
theorem run_keeps {C : Crypto} {m : MMR} {steps : List MMRStep} (hm : m.Bounded)
    (h : AllInRange C m steps) : (run C m steps).Keeps TableUse.InRange MMR.Bounded := by
  induction steps generalizing m with
  | nil => exact Noted.Keeps.pure hm
  | cons step steps ih =>
    apply (perform_keeps hm h.1).bind
    intro m' hout hm'
    exact ih hm' (h.2 m' hout)

/-! ### A test of the condition -/

/-- An entry number that stands for an index, as the node writes it. -/
def isIndex (e : MMREntryNumber) : Bool := e = .ofNat e.unscaled.toNat

theorem toRat_of_isIndex {e : MMREntryNumber} (h : isIndex e = true) : e.toRat = e.unscaled.toNat := by
  rw [isIndex, decide_eq_true_eq] at h
  conv_lhs => rw [h]
  exact MMREntryNumber.toRat_ofNat _

/-- The climb from leaf `n` ends at row `k`. -/
def climbEnds (m : MMR) (proof : MMRProof) (n k : ℕ) : Bool :=
  (m.getPeaks.any fun p => decide (p.row = k) && decide (p.entryNumber = .ofNat (n / 2 ^ k))) ||
    (decide (proof.proofChain.length ≤ k) &&
      (m.getEntryBack .none k (.ofNat (MountainRange.sibling (n / 2 ^ k))) proof.blockTime).isEmpty)

/-- A test of the condition on a step. It does not look into streams. -/
def test (m : MMR) : MMRStep → Bool
  | readDataStream _ => false
  | setEntry row e _ => m.finalized || (decide (0 ≤ row) && decide (row < MMR.maxRows) && isIndex e)
  | updateEntry e proof _ =>
    m.finalized || (isIndex e && (List.range 256).any fun k => climbEnds m proof e.unscaled.toNat k)
  | addEntry _ =>
    m.finalized || (isIndex m.entryNumber &&
      (List.range 256).any fun k => decide (m.entryNumber.unscaled.toNat / 2 ^ k % 2 = 0))
  | _ => true

theorem climbEnds_spec {m : MMR} {proof : MMRProof} {n k : ℕ} (h : climbEnds m proof n k = true) :
    m.ClimbEnds .none proof n k := by
  rw [climbEnds, Bool.or_eq_true, List.any_eq_true, Bool.and_eq_true, decide_eq_true_eq] at h
  rcases h with ⟨p, hp, hpeak⟩ | h
  · rw [Bool.and_eq_true, decide_eq_true_eq, decide_eq_true_eq] at hpeak
    exact .inl ⟨p, hp, hpeak.1, hpeak.2 ▸ MMREntryNumber.toRat_ofNat _⟩
  · exact .inr h

/-- A step that passes the test meets its condition. -/
theorem inRange_of_test {m : MMR} {step : MMRStep} (h : step.test m = true) : step.InRange m := by
  cases step with
  | readDataStream s => cases h
  | setEntry row e d =>
    rw [test, Bool.or_eq_true, Bool.and_eq_true, Bool.and_eq_true, decide_eq_true_eq, decide_eq_true_eq] at h
    exact h.imp id fun ⟨⟨hlow, hhigh⟩, hindex⟩ => ⟨hlow, hhigh, _, toRat_of_isIndex hindex⟩
  | updateEntry e proof d =>
    rw [test, Bool.or_eq_true, Bool.and_eq_true, List.any_eq_true] at h
    refine h.imp id ?_
    rintro ⟨hindex, k, hk, hends⟩
    exact ⟨_, toRat_of_isIndex hindex, k, List.mem_range.mp hk, climbEnds_spec hends⟩
  | addEntry d =>
    rw [test, Bool.or_eq_true, Bool.and_eq_true, List.any_eq_true] at h
    refine h.imp id ?_
    rintro ⟨hindex, k, hk, hleft⟩
    exact ⟨_, toRat_of_isIndex hindex, k, List.mem_range.mp hk, of_decide_eq_true hleft⟩
  | new | setFinalized | setBlockTime | calculateEntryNumberFromPeaks | finalizeSet | getRootData => trivial

/-- The test of every step, in the MMR that the steps before it have made. -/
def testAll (C : Crypto) : MMR → List MMRStep → Bool
  | _, [] => true
  | m, step :: steps =>
    step.test m && (step.perform C m).outcome.toOption.elim true fun m' => testAll C m' steps

theorem allInRange_of_testAll {C : Crypto} {m : MMR} {steps : List MMRStep} (h : testAll C m steps = true) :
    AllInRange C m steps := by
  induction steps generalizing m with
  | nil => trivial
  | cons step steps ih =>
    rw [testAll, Bool.and_eq_true] at h
    refine ⟨inRange_of_test h.1, fun m' hout => ih ?_⟩
    have hrest := h.2
    rwa [hout] at hrest

end MMRStep

/-! ## The calls of the node -/

/-- What the node does to an MMR: reading it from a stream, for a MegaMMR opening it again, setting an entry, changing
a leaf, appending a leaf, and building it from a block. -/
inductive MMROperation where
  | readDataStream (s : List Byte)
  | setFinalized (finalized : Bool)
  | setEntry (row : ℤ) (e : MMREntryNumber) (d : MMRData)
  | updateEntry (e : MMREntryNumber) (proof : MMRProof) (d : MMRData)
  | addEntry (d : MMRData)
  | constructMMR (b : TxBlock)
  | addBlock (P : PruneParams) (b : TxBlock)

namespace MMROperation

/-- The peaks, the spent coins and the new coins of a block. -/
def blockSteps (C : Crypto) (peaks : List MMREntry) (b : TxBlock)
    (leaf : Coin → MMREntryNumber → Result MMRData) : List MMRStep :=
  [.setBlockTime b.txpow.getBlockNumber] ++
    (peaks.map fun p => .setEntry p.row p.entryNumber p.getMMRData) ++
    [.calculateEntryNumberFromPeaks] ++
    (b.spentCoins.map fun input =>
      .updateEntry input.coin.mmrEntryNumber input.proof (MegaMMR.spentData C input.coin)) ++
    (b.newCoins.map fun output => .addEntry (leaf output))

/-- The leaf of a new coin in `constructMMR`. -/
def treeLeaf (C : Crypto) (block : StoredNumber) (output : Coin) (e : MMREntryNumber) : Result MMRData := do
  let newcoin ← MegaMMR.newCoin block e output
  MMRData.createMMRDataLeafNode C newcoin.writeDataStream output.amount.val

/-- The leaf of a new coin in `addBlock`. -/
def megaLeaf (C : Crypto) (P : PruneParams) (block : StoredNumber) (output : Coin) (e : MMREntryNumber) :
    Result MMRData := do
  let newcoin ← MegaMMR.newCoin block e output
  MegaMMR.newData C P newcoin

/-- The steps of a call. -/
def steps (C : Crypto) : MMROperation → List MMRStep
  | readDataStream s => [.readDataStream s]
  | setFinalized finalized => [.setFinalized finalized]
  | setEntry row e d => [.setEntry row e (.ok d)]
  | updateEntry e proof d => [.updateEntry e proof (.ok d)]
  | addEntry d => [.addEntry fun _ => .ok d]
  | constructMMR b =>
    [.new] ++ blockSteps C (b.previousPeaks.filter fun p => p.mmrData.isSome) b
      (treeLeaf C b.txpow.header.blockNumber) ++ [.finalizeSet]
  | addBlock P b =>
    blockSteps C b.previousPeaks b (megaLeaf C P b.txpow.header.blockNumber) ++ [.getRootData]

/-! ### The steps of a block are the functions of the node -/

theorem run_peaks (C : Crypto) (m : MMR) (peaks : List MMREntry) :
    (MMRStep.run C m (peaks.map fun p => .setEntry p.row p.entryNumber p.getMMRData)).outcome =
      m.setPeaks peaks := by
  induction peaks generalizing m with
  | nil => rfl
  | cons peak peaks ih => simp [MMRStep.run, MMRStep.perform, MMR.setPeaks, ih]

/-- Peaks without data are skipped. -/
theorem addPeaks_eq (m : MMR) (peaks : List MMREntry) :
    TxPoWTreeNode.addPeaks m peaks = m.setPeaks (peaks.filter fun p => p.mmrData.isSome) := by
  induction peaks generalizing m with
  | nil => rfl
  | cons peak peaks ih =>
    unfold TxPoWTreeNode.addPeaks
    cases hdata : peak.mmrData with
    | none => simp [hdata, ih]
    | some d => simp [hdata, ih, MMR.setPeaks, MMREntry.getMMRData]

/-- A loop whose passes are steps. -/
theorem run_foldlM {σ α : Type} {C : Crypto} {step : α → MMRStep} {f : σ → α → Result σ} {mmr : σ → MMR}
    (h : ∀ s a, ((step a).perform C (mmr s)).outcome = mmr <$> f s a) (s : σ) (as : List α) :
    (MMRStep.run C (mmr s) (as.map step)).outcome = mmr <$> as.foldlM f s := by
  induction as generalizing s with
  | nil => rfl
  | cons a as ih =>
    rw [List.map_cons, MMRStep.run, Noted.outcome_bind, h, List.foldlM_cons, map_bind, bind_map_left]
    congr 1
    funext s'
    exact ih s'

theorem run_blockSteps (C : Crypto) (m : MMR) (peaks : List MMREntry) (b : TxBlock)
    (leaf : Coin → MMREntryNumber → Result MMRData) :
    (MMRStep.run C m (blockSteps C peaks b leaf)).outcome = (do
      let time ← b.txpow.getBlockNumber.copy
      let m ← { m with blockTime := time }.setPeaks peaks
      let m ← m.calculateEntryNumberFromPeaks
      let m ← (MMRStep.run C m (b.spentCoins.map fun input =>
        .updateEntry input.coin.mmrEntryNumber input.proof (MegaMMR.spentData C input.coin))).outcome
      (MMRStep.run C m (b.newCoins.map fun output => .addEntry (leaf output))).outcome) := by
  simp only [blockSteps, MMRStep.run_append, bind_assoc]
  simp [MMRStep.run, MMRStep.perform, run_peaks]

/-- **`constructMMR`** is the run of its steps. -/
theorem constructMMR_eq (C : Crypto) (m : MMR) (b : TxBlock) :
    (MMRStep.run C m ((constructMMR b).steps C)).outcome =
      Prod.fst <$> TxPoWTreeNode.constructMMR C b := by
  have hspend : ∀ (s : MMR × List Coin) input,
      ((MMRStep.updateEntry input.coin.mmrEntryNumber input.proof
        (MegaMMR.spentData C input.coin)).perform C s.1).outcome =
      Prod.fst <$> TxPoWTreeNode.spendInput C s input := by
    intro s input
    simp [MMRStep.perform, TxPoWTreeNode.spendInput, MegaMMR.spentData]
  have hadd : ∀ (s : MMR × List Coin) output,
      ((MMRStep.addEntry (treeLeaf C b.txpow.header.blockNumber output)).perform C s.1).outcome =
      Prod.fst <$> TxPoWTreeNode.addOutput C b.txpow.header.blockNumber s output := by
    intro s output
    simp [MMRStep.perform, TxPoWTreeNode.addOutput, treeLeaf, MegaMMR.newCoin]
  have hspends : ∀ m1 : MMR, _ := fun m1 => run_foldlM hspend (m1, []) b.spentCoins
  have hadds : ∀ s : MMR × List Coin, _ := fun s => run_foldlM hadd s b.newCoins
  simp only at hspends hadds
  simp only [steps, MMRStep.run_append, run_blockSteps, hspends, hadds, bind_map_left, bind_assoc]
  simp [MMRStep.run, MMRStep.perform, TxPoWTreeNode.constructMMR, addPeaks_eq]

/-- **`addBlock`** is the run of its steps. -/
theorem addBlock_eq (C : Crypto) (P : PruneParams) (mega : MegaMMR) (b : TxBlock) :
    (MMRStep.run C mega.mmr ((addBlock P b).steps C)).outcome =
      MegaMMR.mmr <$> mega.addBlock C P b := by
  have hspend : ∀ (s : MegaMMR) input,
      ((MMRStep.updateEntry input.coin.mmrEntryNumber input.proof
        (MegaMMR.spentData C input.coin)).perform C s.mmr).outcome =
      MegaMMR.mmr <$> s.spendInput C input := by
    intro s input
    simp [MMRStep.perform, MegaMMR.spendInput]
  have hadd : ∀ (s : MegaMMR) output,
      ((MMRStep.addEntry (megaLeaf C P b.txpow.header.blockNumber output)).perform C s.mmr).outcome =
      MegaMMR.mmr <$> s.addOutput C P b.txpow.header.blockNumber output := by
    intro s output
    simp [MMRStep.perform, MegaMMR.addOutput, megaLeaf]
  have hspends : ∀ m1 : MMR, _ := fun m1 =>
    run_foldlM hspend ⟨m1, mega.allUnspentCoins⟩ b.spentCoins
  have hadds : ∀ s : MegaMMR, _ := fun s => run_foldlM hadd s b.newCoins
  simp only at hspends hadds
  simp only [steps, MMRStep.run_append, run_blockSteps, hspends, hadds, bind_map_left, bind_assoc]
  simp only [MegaMMR.addBlock, map_bind, MMRStep.run_singleton, MMRStep.perform, Noted.outcome_bind,
    MMR.outcome_getRootNoted]
  -- both sides end with a look at the root
  refine bind_congr fun time => bind_congr fun m1 => bind_congr fun m2 => bind_congr fun s1 =>
    bind_congr fun s2 => bind_congr fun root => ?_
  cases root <;> rfl

/-! ### The table in range -/

/-- What the node does to an MMR, call after call. A call that fails is the last one. -/
def run (C : Crypto) (m : MMR) (ops : List MMROperation) : Noting MMR :=
  MMRStep.run C m (ops.flatMap (steps C))

/-- **The table is used in range:** every row is an index of the table, and every number is a natural
number. -/
def StaysInRange (C : Crypto) (m : MMR) (ops : List MMROperation) : Prop :=
  ∀ u ∈ (run C m ops).notes, u.InRange

/-- Every step of every call meets its condition. -/
def AllInRange (C : Crypto) (m : MMR) (ops : List MMROperation) : Prop :=
  MMRStep.AllInRange C m (ops.flatMap (steps C))

/-- **In a run whose steps all meet their conditions the table is used in range**, and what it leaves stored is
in range too. -/
theorem run_inRange (C : Crypto) (ops : List MMROperation) (h : AllInRange C .new ops) :
    StaysInRange C .new ops ∧ ∀ m, (run C .new ops).outcome = .ok m →
      ∀ x ∈ m.setEntries, (TableUse.mk x.row x.entryNumber).InRange := by
  have hrun := MMRStep.run_keeps MMR.bounded_new h
  exact ⟨hrun.1, fun m hm => (hrun.2 m hm).entries⟩

/-- The hash `[0]` without value. -/
def sampleData : MMRData := ⟨⟨[0]⟩, .zero, false, MiniNumber.canonical_zero⟩

/-- A block on two leaves: it spends the first of them and makes a third. -/
def sampleBlock : TxBlock where
  txpow := TxPoW.sample [1] 1 0 (fun _ => MiniData.zeroTxPowID) TxPoW.one_lt_limit
  previousPeaks := [.make 1 (.ofNat 0) sampleData]
  spentCoins := [⟨Transaction.sampleCoin 2 Transaction.sampleOne Token.TOKENID_MINIMA,
    ⟨.zero, [⟨0, sampleData⟩]⟩⟩]
  newCoins := [Transaction.sampleCoin 3 Transaction.sampleOne Token.TOKENID_MINIMA]

/-- Two leaves, a change of the first one, and the block, for a MegaMMR and for the tree. -/
def sampleCalls : List MMROperation :=
  [.addEntry sampleData, .addEntry sampleData, .updateEntry (.ofNat 0) ⟨.zero, []⟩ sampleData,
    .addBlock ⟨false, false, false⟩ sampleBlock, .constructMMR sampleBlock]

theorem run_inRange_two : (run .plain .new sampleCalls).outcome.isOk = true ∧
    StaysInRange .plain .new sampleCalls ∧ ∀ m, (run .plain .new sampleCalls).outcome = .ok m →
      ∀ x ∈ m.setEntries, (TableUse.mk x.row x.entryNumber).InRange :=
  ⟨by decide +kernel, run_inRange .plain sampleCalls (MMRStep.allInRange_of_testAll (by decide +kernel))⟩

/-- The stream of an MMR with one entry, in row 256. -/
def strayRow : List Byte :=
  [0, 1, 0] ++ [0, 1, 0, 0, 0, 0, 1, 0] ++ [0, 1, 1] ++
    ([0, 2, 1, 0] ++ [0, 1, 0, 0, 0, 0, 1, 0] ++ [0, 0, 0, 1, 0] ++ [0, 1, 0])

theorem not_staysInRange : ¬ ∀ (C : Crypto) (ops : List MMROperation), StaysInRange C .new ops := by
  intro h
  have hnotes : (run .plain .new [.readDataStream strayRow]).notes = [⟨256, .zero⟩] := by
    decide +kernel
  have huse := h .plain [.readDataStream strayRow] ⟨256, .zero⟩ (by rw [hnotes]; exact List.mem_cons_self)
  exact absurd huse.2.1 (by decide)

end MMROperation

end Minima
