import Minima.Database.Cascade

/-! # Super parents: the rule, its generator, and the cascade as its witness

Every block names, for every super level, the last block before it of at least that level.
`checkParents` verifies this by walking back through the tree and then through the cascade;
`generateTxPoW` fills it in from the tip alone; `checkCascadeCorrect` verifies a cascade that a peer
sends.

* **`checkParents_eq`** — the walk accepts exactly the super parents that `latestID` names.
* **`FollowsRule`** — a chain each block of which is accepted on the whole chain before it.
* **`Stands.latest_eq`** — a cascade answers for the whole chain it stands for. -/

namespace Minima

open LevelScan

namespace TxPoWChecker

/-! ## `checkParents` -/

/-- The inner `while` loop: the super parents from level `blocksup` on have to be this block. There
are `todo` levels to match; nothing is returned on a mismatch. -/
def matchLevels (zBlock : TxPoW) (txdata : MiniData) : ℕ → ℕ → Result (Option ℕ)
  | 0, blocksup => .ok (some blocksup)
  | todo + 1, blocksup => do
    let superparent ← zBlock.getSuperParent blocksup
    if superparent.isEqual txdata then matchLevels zBlock txdata todo (blocksup + 1)
    else return none

/-- The outer `while` loop over the blocks, newest first. -/
def walkBack (zBlock : TxPoW) : List TxPoW → ℕ → Result (Option ℕ)
  | [], blocksup => .ok (some blocksup)
  | txpow :: older, blocksup => do
    -- while (superlevel >= blocksup)
    match ← matchLevels zBlock txpow.txPoWID (txpow.getSuperLevel + 1 - blocksup) blocksup with
    | none => return none
    | some blocksup => walkBack zBlock older blocksup

/-- The last loop: the `todo` levels that no block reaches have to be `0x00`. -/
def restZero (zBlock : TxPoW) : ℕ → ℕ → Result Bool
  | 0, _ => .ok true
  | todo + 1, i => do
    let sp ← zBlock.getSuperParent i
    if sp.isEqual MiniData.zeroTxPowID then restZero zBlock todo (i + 1) else return false

/-- **`checkParents`**: `zTip` is given by the blocks from it back to the root of the tree. -/
def checkParents (zTip : List TxPoW) (cascade : Cascade) (zBlock : TxPoW) : Result Bool := do
  match ← walkBack zBlock zTip 0 with
  | none => return false
  | some blocksup =>
    match ← walkBack zBlock (Cascade.blocks cascade.nodes) blocksup with
    | none => return false
    | some blocksup => restZero zBlock (cascadeLevels - blocksup) blocksup

/-- The last block of at least a level, by its id; `0x00` where there is none. -/
def latestID (i : ℕ) (chain : List TxPoW) : MiniData :=
  match latest TxPoW.getSuperLevel i chain with
  | some txpow => txpow.txPoWID
  | none => MiniData.zeroTxPowID

/-- **The super-parent rule** against a whole chain, newest block first. -/
def Follows (zBlock : TxPoW) (chain : List TxPoW) : Prop :=
  ∀ i : Fin cascadeLevels, zBlock.header.superParents i = latestID i chain

instance (zBlock : TxPoW) (chain : List TxPoW) : Decidable (Follows zBlock chain) :=
  inferInstanceAs (Decidable (∀ _, _))

/-- A chain, newest block first, each block of which `checkParents` accepts on all that came
before it. -/
def FollowsRule : List TxPoW → Prop
  | [] => True
  | txpow :: older => checkParents older Cascade.empty txpow = .ok true ∧ FollowsRule older

theorem getSuperParent_of_lt {zBlock : TxPoW} {i : ℕ} (h : i < cascadeLevels) :
    zBlock.getSuperParent i = .ok (zBlock.header.superParents ⟨i, h⟩) := dif_pos h

/-- The inner loop returns, and goes on exactly when every level it looks at names the block. -/
theorem matchLevels_eq (zBlock : TxPoW) (txdata : MiniData) (todo blocksup stop : ℕ)
    (h : blocksup + todo = stop) (hstop : stop ≤ cascadeLevels) :
    matchLevels zBlock txdata todo blocksup =
      .ok (if ∀ i : Fin cascadeLevels, blocksup ≤ i → i < stop →
        zBlock.header.superParents i = txdata then some stop else none) := by
  induction todo generalizing blocksup with
  | zero =>
    obtain rfl : blocksup = stop := h
    rw [matchLevels, if_pos]
    intro i h1 h2
    exact absurd h2 (not_lt.mpr h1)
  | succ todo ih =>
    have hlt : blocksup < cascadeLevels := by omega
    rw [matchLevels, getSuperParent_of_lt hlt, Result.ok_bind]
    by_cases heq : zBlock.header.superParents ⟨blocksup, hlt⟩ = txdata
    · rw [if_pos ((MiniData.isEqual_iff _ _).mpr heq), ih (blocksup + 1) (by omega)]
      congr 1
      apply if_congr _ rfl rfl
      constructor
      · intro hall i h1 h2
        rcases Nat.eq_or_lt_of_le h1 with rfl | h1
        · exact heq
        · exact hall i h1 h2
      · intro hall i h1 h2
        exact hall i (by omega) h2
    · rw [if_neg (mt (MiniData.isEqual_iff _ _).mp heq), if_neg]
      · rfl
      · intro hall
        exact heq (hall ⟨blocksup, hlt⟩ (le_refl _) (by simp only; omega))

theorem restZero_eq (zBlock : TxPoW) (todo i : ℕ) (h : i + todo = cascadeLevels) :
    restZero zBlock todo i =
      .ok (decide (∀ j : Fin cascadeLevels, i ≤ j →
        zBlock.header.superParents j = MiniData.zeroTxPowID)) := by
  induction todo generalizing i with
  | zero =>
    rw [restZero, decide_eq_true fun j hj => absurd j.isLt (by omega)]
  | succ todo ih =>
    have hlt : i < cascadeLevels := by omega
    rw [restZero, getSuperParent_of_lt hlt, Result.ok_bind]
    by_cases heq : zBlock.header.superParents ⟨i, hlt⟩ = MiniData.zeroTxPowID
    · rw [if_pos ((MiniData.isEqual_iff _ _).mpr heq), ih (i + 1) (by omega)]
      have hiff : (∀ j : Fin cascadeLevels, i + 1 ≤ j →
          zBlock.header.superParents j = MiniData.zeroTxPowID) ↔
          ∀ j : Fin cascadeLevels, i ≤ j → zBlock.header.superParents j = MiniData.zeroTxPowID := by
        constructor
        · intro hall j hj
          rcases Nat.eq_or_lt_of_le hj with rfl | hj
          · exact heq
          · exact hall j hj
        · intro hall j hj
          exact hall j (by omega)
      simp only [hiff]
    · rw [if_neg (mt (MiniData.isEqual_iff _ _).mp heq), decide_eq_false]
      · rfl
      · intro hall
        exact heq (hall ⟨i, hlt⟩ (le_refl _))

/-- The walk in two parts is one walk. -/
theorem walkBack_append (zBlock : TxPoW) (newer older : List TxPoW) (blocksup : ℕ) :
    walkBack zBlock (newer ++ older) blocksup =
      (do
        match ← walkBack zBlock newer blocksup with
        | none => return none
        | some blocksup => walkBack zBlock older blocksup) := by
  induction newer generalizing blocksup with
  | nil => rfl
  | cons txpow newer ih =>
    rw [List.cons_append, walkBack, walkBack, bind_assoc]
    congr 1
    funext m
    cases m with
    | none => rfl
    | some b => exact ih b

/-- Walk back from level `blocksup` on, and then look at the levels that are left. -/
def walkAndRest (zBlock : TxPoW) (chain : List TxPoW) (blocksup : ℕ) : Result Bool := do
  match ← walkBack zBlock chain blocksup with
  | none => return false
  | some blocksup => restZero zBlock (cascadeLevels - blocksup) blocksup

/-- **One walk over the chain decides the rule** for the levels from `blocksup` on. -/
theorem walkAndRest_eq (zBlock : TxPoW) (chain : List TxPoW) (blocksup : ℕ)
    (h : blocksup ≤ cascadeLevels) :
    walkAndRest zBlock chain blocksup =
      .ok (decide (∀ i : Fin cascadeLevels, blocksup ≤ i →
        zBlock.header.superParents i = latestID i chain)) := by
  induction chain generalizing blocksup with
  | nil =>
    show restZero zBlock (cascadeLevels - blocksup) blocksup = _
    rw [restZero_eq _ _ _ (by omega)]
    rfl
  | cons txpow older ih =>
    have hsup : txpow.getSuperLevel < cascadeLevels := txpow.superBlock.isLt
    rw [walkAndRest, walkBack, matchLevels_eq _ _ _ _ _ rfl (by omega), Result.ok_bind]
    by_cases hall : ∀ i : Fin cascadeLevels, blocksup ≤ i →
        i < blocksup + (txpow.getSuperLevel + 1 - blocksup) →
        zBlock.header.superParents i = txpow.txPoWID
    · rw [if_pos hall]
      show walkAndRest zBlock older _ = _
      rw [ih _ (by omega)]
      congr 2
      rw [eq_iff_iff]
      constructor
      · intro hrest i hi
        by_cases hle : (i : ℕ) ≤ txpow.getSuperLevel
        · rw [hall i hi (by omega), latestID, latest_cons_of_le _ hle]
        · rw [hrest i (by omega), latestID, latestID, latest_cons_of_lt _ (not_le.mp hle)]
      · intro hrest i hi
        rw [hrest i (by omega), latestID, latestID, latest_cons_of_lt _ (by omega)]
    · rw [if_neg hall]
      symm
      apply congrArg
      rw [decide_eq_false_iff_not]
      intro hrest
      refine hall fun i h1 h2 => ?_
      rw [hrest i h1, latestID, latest_cons_of_le _ (by omega)]

/-- **`checkParents` decides the super-parent rule** against the blocks of the tree and the cascade
together. -/
theorem checkParents_eq (zTip : List TxPoW) (cascade : Cascade) (zBlock : TxPoW) :
    checkParents zTip cascade zBlock =
      .ok (decide (Follows zBlock (zTip ++ Cascade.blocks cascade.nodes))) := by
  have h := walkAndRest_eq zBlock (zTip ++ Cascade.blocks cascade.nodes) 0 (Nat.zero_le _)
  rw [walkAndRest, walkBack_append, bind_assoc] at h
  rw [checkParents]
  have hrule : (∀ i : Fin cascadeLevels, 0 ≤ (i : ℕ) → zBlock.header.superParents i =
      latestID i (zTip ++ Cascade.blocks cascade.nodes)) ↔
      Follows zBlock (zTip ++ Cascade.blocks cascade.nodes) :=
    ⟨fun hall i => hall i (Nat.zero_le _), fun hall i _ => hall i⟩
  rw [decide_eq_decide.mpr hrule] at h
  rw [← h]
  congr 1
  funext m
  cases m with
  | none => rfl
  | some b => rfl

/-- On the whole chain and nothing in the cascade, `checkParents` is the rule. -/
theorem followsRule_cons {txpow : TxPoW} {older : List TxPoW} :
    FollowsRule (txpow :: older) ↔ Follows txpow older ∧ FollowsRule older := by
  have h : Cascade.blocks Cascade.empty.nodes = [] := rfl
  rw [FollowsRule, checkParents_eq, h, List.append_nil, Except.ok.injEq, decide_eq_true_eq]

/-- A copy without the body answers the same. -/
theorem latestID_map_clearBody (i : ℕ) (chain : List TxPoW) :
    latestID i (chain.map TxPoW.clearBody) = latestID i chain := by
  induction chain with
  | nil => rfl
  | cons txpow older ih =>
    rw [List.map_cons]
    by_cases h : i ≤ txpow.getSuperLevel
    · have hc : i ≤ txpow.clearBody.getSuperLevel := h
      rw [latestID, latestID, latest_cons_of_le _ hc, latest_cons_of_le _ h]
      rfl
    · rw [not_le] at h
      have hc : txpow.clearBody.getSuperLevel < i := h
      rw [latestID, latest_cons_of_lt _ hc, ← latestID, ih, latestID, latestID,
        latest_cons_of_lt _ h]

theorem latestID_append (i : ℕ) (newer older : List TxPoW) :
    latestID i (newer ++ older) =
      match latest TxPoW.getSuperLevel i newer with
      | some txpow => txpow.txPoWID
      | none => latestID i older := by
  rw [latestID, latest_append]
  cases latest TxPoW.getSuperLevel i newer with
  | some t => rfl
  | none => rfl

end TxPoWChecker

/-! ## The cascade in place of the chain -/

namespace Cascade

open TxPoWChecker

/-- **A cascade knows the last block of every level of the chain it stands for.** -/
theorem Stands.latest_eq {lim : Limits} {nodes : List CascadeNode} {full : List TxPoW}
    (h : Stands lim nodes full) (i : ℕ) :
    latest TxPoW.getSuperLevel i (blocks nodes) = latest TxPoW.getSuperLevel i full := by
  cases h with
  | empty => rfl
  | @tip tip ns fs level same =>
    rw [blocks_cons]
    by_cases hi : i ≤ tip.txpow.getSuperLevel
    · rw [latest_cons_of_le _ hi, latest_cons_of_le _ hi]
    · -- the pass starts at level zero, so it keeps the last block of every level
      rw [latest_cons_of_lt _ (not_le.mp hi), latest_cons_of_lt _ (not_le.mp hi)]
      have hkept : kept lim TxPoW.getSuperLevel start (blocks ns) =
          kept lim TxPoW.getSuperLevel start fs :=
        congrArg (List.map Prod.fst) (same start (State.le_refl _))
      rw [← latest_kept lim TxPoW.getSuperLevel (s := start) (Nat.zero_le i) (blocks ns), hkept,
        latest_kept lim TxPoW.getSuperLevel (Nat.zero_le i)]

/-- **Pruning does not change the verdict.** After any calls the cascade answers `checkParents` as the
whole chain it was given would. -/
theorem checkParents_run (levelNodes : ℕ) (calls : List Call) (zTip : List TxPoW) (zBlock : TxPoW) :
    checkParents zTip (empty.run levelNodes calls) zBlock =
      .ok (decide (Follows zBlock (zTip ++ (added calls).reverse))) := by
  rw [checkParents_eq]
  congr 2
  rw [eq_iff_iff]
  have hlatest : ∀ i, latestID i (zTip ++ blocks (empty.run levelNodes calls).nodes) =
      latestID i (zTip ++ (added calls).reverse) := by
    intro i
    rw [latestID_append, latestID_append, latestID, (stands_run_empty levelNodes calls).latest_eq i,
      ← latestID, latestID_map_clearBody]
  constructor
  · intro h i
    rw [h i, hlatest]
  · intro h i
    rw [h i, hlatest]

end Cascade

/-! ## The generator -/

namespace TxPoW

/-- `setSuperParent`: throws out of range. -/
def setSuperParent (t : TxPoW) (zLevel : ℕ) (zSuperParent : MiniData) : Result TxPoW :=
  if h : zLevel < cascadeLevels then
    .ok { t with header :=
      { t.header with superParents := Function.update t.header.superParents ⟨zLevel, h⟩ zSuperParent } }
  else throwException "setSuperParent: level out of range"

theorem setSuperParent_of_lt {t : TxPoW} {i : ℕ} (h : i < cascadeLevels) (p : MiniData) :
    t.setSuperParent i p =
      .ok { t with header :=
        { t.header with superParents := Function.update t.header.superParents ⟨i, h⟩ p } } := dif_pos h

end TxPoW

namespace TxPoWGenerator

open TxPoWChecker

/-- The first loop of `generateTxPoW` over the levels: copy the tip's super parents from level `i` on;
`todo` levels are left. -/
def copyParents (tip : TxPoW) : ℕ → ℕ → TxPoW → Result TxPoW
  | 0, _, txpow => .ok txpow
  | todo + 1, i, txpow => do
    let superparent ← tip.getSuperParent i
    let txpow ← txpow.setSuperParent i superparent
    copyParents tip todo (i + 1) txpow

/-- The second loop: levels `sbl` down to zero point to the tip. -/
def pointToTip (tiptxid : MiniData) : ℕ → TxPoW → Result TxPoW
  | 0, txpow => txpow.setSuperParent 0 tiptxid
  | i + 1, txpow => do
    let txpow ← txpow.setSuperParent (i + 1) tiptxid
    pointToTip tiptxid i txpow

/-- **The super parents of `generateTxPoW`**: what it does to the block it makes on a tip. -/
def generateParents (tip txpow : TxPoW) : Result TxPoW := do
  let txpow ← copyParents tip cascadeLevels 0 txpow
  pointToTip tip.txPoWID tip.getSuperLevel txpow

theorem copyParents_eq (tip : TxPoW) (todo i : ℕ) (txpow : TxPoW) (h : i + todo = cascadeLevels) :
    ∃ t, copyParents tip todo i txpow = .ok t ∧ ∀ j : Fin cascadeLevels,
      t.header.superParents j =
        if i ≤ j then tip.header.superParents j else txpow.header.superParents j := by
  induction todo generalizing i txpow with
  | zero =>
    refine ⟨txpow, rfl, fun j => ?_⟩
    rw [if_neg]
    omega
  | succ todo ih =>
    have hlt : i < cascadeLevels := by omega
    rw [copyParents, getSuperParent_of_lt hlt, Result.ok_bind, TxPoW.setSuperParent_of_lt hlt,
      Result.ok_bind]
    obtain ⟨t, ht, hj⟩ := ih (i + 1) _ (by omega)
    refine ⟨t, ht, fun j => ?_⟩
    rw [hj j]
    simp only [Function.update_apply, Fin.ext_iff]
    split_ifs with h1 h2 h3 h4 h5
    · rfl
    · omega
    · rw [show j = ⟨i, hlt⟩ from Fin.ext h3]
    · omega
    · omega
    · rfl

theorem pointToTip_eq (tiptxid : MiniData) (sbl : ℕ) (txpow : TxPoW) (h : sbl < cascadeLevels) :
    ∃ t, pointToTip tiptxid sbl txpow = .ok t ∧ ∀ j : Fin cascadeLevels,
      t.header.superParents j = if (j : ℕ) ≤ sbl then tiptxid else txpow.header.superParents j := by
  induction sbl generalizing txpow with
  | zero =>
    rw [pointToTip, TxPoW.setSuperParent_of_lt h]
    refine ⟨_, rfl, fun j => ?_⟩
    simp only [Function.update_apply, Fin.ext_iff, Nat.le_zero]
  | succ sbl ih =>
    rw [pointToTip, TxPoW.setSuperParent_of_lt h, Result.ok_bind]
    obtain ⟨t, ht, hj⟩ := ih _ (by omega)
    refine ⟨t, ht, fun j => ?_⟩
    rw [hj j]
    simp only [Function.update_apply, Fin.ext_iff]
    split_ifs with h1 h2 h3 h4
    · rfl
    · omega
    · rfl
    · omega
    · omega
    · rfl

/-- **The recurrence names the last block of every level.** -/
theorem generateParents_follows {tip : TxPoW} {older : List TxPoW} (h : Follows tip older)
    (txpow : TxPoW) :
    ∃ t, generateParents tip txpow = .ok t ∧ Follows t (tip :: older) := by
  obtain ⟨t1, h1, hj1⟩ := copyParents_eq tip cascadeLevels 0 txpow (Nat.zero_add _)
  obtain ⟨t2, h2, hj2⟩ := pointToTip_eq tip.txPoWID tip.getSuperLevel t1 tip.superBlock.isLt
  refine ⟨t2, ?_, fun i => ?_⟩
  · rw [generateParents, h1, Result.ok_bind, h2]
  · rw [hj2 i]
    split_ifs with hi
    · rw [latestID, latest_cons_of_le _ hi]
    · rw [hj1 i, if_pos (Nat.zero_le _), h i, latestID, latestID, latest_cons_of_lt _ (not_le.mp hi)]

/-- **Generator and checker agree.** On the tip of a chain that follows the rule, `generateTxPoW`
names for every level the last block of at least that level, and wherever a node has put the border
between its tree and its cascade, and however it made the cascade, `checkParents` accepts a block with
these super parents. -/
theorem generateParents_checkParents (levelNodes : ℕ) (tip txpow : TxPoW) (older : List TxPoW)
    (hchain : FollowsRule (tip :: older)) :
    ∃ generated, generateParents tip txpow = .ok generated ∧
      (∀ i : Fin cascadeLevels, generated.header.superParents i = latestID i (tip :: older)) ∧
      ∀ zBlock : TxPoW, zBlock.header.superParents = generated.header.superParents →
        ∀ (zTip below : List TxPoW) (calls : List Cascade.Call), zTip ++ below = tip :: older →
          Cascade.added calls = below.reverse →
          checkParents zTip (Cascade.empty.run levelNodes calls) zBlock = .ok true := by
  obtain ⟨t, ht, hfollows⟩ := generateParents_follows (followsRule_cons.mp hchain).1 txpow
  refine ⟨t, ht, hfollows, fun zBlock hsame zTip below calls hsplit hadded => ?_⟩
  rw [Cascade.checkParents_run, hadded, List.reverse_reverse, hsplit, decide_eq_true]
  intro i
  rw [hsame]
  exact hfollows i

/-- A first block of super level one. -/
def sampleFirst : TxPoW := TxPoW.sample [1] 1 1 fun _ => MiniData.zeroTxPowID

/-- A block on it. -/
def sampleSecond : TxPoW :=
  TxPoW.sample [2] 2 0 fun i => if (i : ℕ) ≤ 1 then sampleFirst.txPoWID else MiniData.zeroTxPowID

theorem followsRule_sample : FollowsRule [sampleSecond, sampleFirst] := by
  rw [followsRule_cons, followsRule_cons]
  refine ⟨?_, ?_, trivial⟩ <;> decide +kernel

/-- On a tree of one block over a cascade of one. -/
theorem generateParents_checkParents_sample :
    ∃ generated, generateParents sampleSecond (TxPoW.sample [3] 3 0 fun _ => ⟨[]⟩) =
        .ok generated ∧
      checkParents [sampleSecond]
        (Cascade.empty.run 256 [.addToTip sampleFirst, .cascadeChain]) generated = .ok true := by
  obtain ⟨g, hg, -, hcheck⟩ := generateParents_checkParents 256 sampleSecond
    (TxPoW.sample [3] 3 0 fun _ => ⟨[]⟩) [sampleFirst] followsRule_sample
  exact ⟨g, hg, hcheck g rfl [sampleSecond] [sampleFirst] _ rfl rfl⟩

end TxPoWGenerator

/-! ## `checkCascadeCorrect` -/

namespace Cascade

open TxPoWChecker

/-- `checkPastNodeExists`: the id, as text, from a node on. -/
def checkPastNodeExists (nodes : List CascadeNode) (zTxPoWID : Text) : Bool :=
  nodes.any fun cnode => cnode.txpow.getTxPoWID == zTxPoWID

/-- The loop over the levels of one node from `i` on; `todo` levels are left, and `past` are the nodes
from this one to the root. -/
def checkLevels (txp : TxPoW) (past : List CascadeNode) (clevel : ℕ) (lastnode : Bool) :
    ℕ → ℕ → Bool → Result Bool
  | 0, _, _ => .ok true
  | todo + 1, i, foundzero => do
    let superparent ← txp.getSuperParent i
    let sparent := superparent.to0xString
    if sparent = MiniNumber.ascii "0x00" then
      checkLevels txp past clevel lastnode todo (i + 1) true
    else if foundzero then return false
    -- the last node of a level need not know the last block of that level itself
    else if (!lastnode || clevel < i) && !checkPastNodeExists past sparent then return false
    else checkLevels txp past clevel lastnode todo (i + 1) foundzero

/-- Whether a node is the last one of its level. -/
def isLastNode (clevel : ℕ) : List CascadeNode → Bool
  | [] => true
  | pnode :: _ => pnode.currentLevel != clevel

/-- The `while` loop over the nodes. -/
def checkNodes : ℕ → List CascadeNode → Result Bool
  | _, [] => .ok true
  | oldlevel, cnode :: rest => do
    let clevel := cnode.currentLevel
    if clevel ≠ oldlevel ∧ clevel ≠ oldlevel + 1 then return false
    let ok ← checkLevels cnode.txpow (cnode :: rest) clevel (isLastNode clevel rest)
      (cascadeLevels - clevel) clevel false
    if !ok then return false
    checkNodes clevel rest

/-- **`checkCascadeCorrect`**: what a peer checks of a cascade. -/
def checkCascadeCorrect (c : Cascade) : Result Bool :=
  match c.getTip with
  | none => .ok true
  | some tip => if tip.currentLevel ≠ 0 then .ok false else checkNodes 0 c.nodes

/-- One call that returns. -/
def callReturning (levelNodes : ℕ) (c : Cascade) : Call → Result Cascade
  | .addToTip zTxPoW => .ok (c.addToTip zTxPoW)
  | .cascadeChain => c.finalCascade levelNodes

/-- Calls one after the other, each of which returns. -/
def runReturning (levelNodes : ℕ) (calls : List Call) (c : Cascade) : Result Cascade :=
  calls.foldlM (callReturning levelNodes) c

theorem zero_to0xString : MiniData.zeroTxPowID.to0xString = MiniNumber.ascii "0x00" := by decide

/-- The text of an id is `0x00` for one id only. -/
theorem to0xString_eq_zero_iff (d : MiniData) :
    d.to0xString = MiniNumber.ascii "0x00" ↔ d = MiniData.zeroTxPowID := by
  rw [← zero_to0xString]
  exact ⟨MiniData.to0xString_injective, fun h => by rw [h]⟩

theorem checkPastNodeExists_of_mem {nodes : List CascadeNode} {n : CascadeNode} (h : n ∈ nodes) :
    checkPastNodeExists nodes n.txpow.txPoWID.to0xString = true := by
  rw [checkPastNodeExists, List.any_eq_true]
  exact ⟨n, h, by simp [TxPoW.getTxPoWID]⟩

/-- **One node passes** when it follows the rule and the blocks it has to know are behind it. -/
theorem checkLevels_eq_true {txp : TxPoW} {older : List TxPoW} {past : List CascadeNode} {clevel : ℕ}
    {lastnode : Bool} (hrule : Follows txp older)
    (hids : ∀ t ∈ older, t.txPoWID ≠ MiniData.zeroTxPowID)
    (hpast : ∀ j t, clevel ≤ j → (lastnode = true → clevel < j) →
      latest TxPoW.getSuperLevel j older = some t → t ∈ blocks past)
    (todo i : ℕ) (foundzero : Bool) (hi : clevel ≤ i) (h : i + todo = cascadeLevels)
    (hzero : foundzero = true → latest TxPoW.getSuperLevel i older = none) :
    checkLevels txp past clevel lastnode todo i foundzero = .ok true := by
  induction todo generalizing i foundzero with
  | zero => rfl
  | succ todo ih =>
    have hlt : i < cascadeLevels := by omega
    rw [checkLevels, getSuperParent_of_lt hlt, Result.ok_bind, hrule ⟨i, hlt⟩]
    simp only [to0xString_eq_zero_iff]
    cases hlatest : latest TxPoW.getSuperLevel i older with
    | none =>
      rw [latestID, hlatest, if_pos rfl]
      exact ih (i + 1) true (by omega) (by omega) fun _ =>
        latest_eq_none_of_le _ (Nat.le_succ i) hlatest
    | some t =>
      have hnz : foundzero = false := by
        by_contra hf
        rw [hzero (by simpa using hf)] at hlatest
        cases hlatest
      subst hnz
      have hid : latestID i older = t.txPoWID := by rw [latestID, hlatest]
      rw [hid, if_neg (hids t (mem_of_latest _ hlatest)), if_neg (by simp), if_neg]
      · exact ih (i + 1) false (by omega) (by omega) fun hf => nomatch hf
      · -- where the block is looked up, it is there
        rw [Bool.and_eq_true, not_and, Bool.not_eq_true', Bool.not_eq_false]
        intro hlook
        have hlast : lastnode = true → clevel < i := by
          intro hl
          simpa [hl] using hlook
        obtain ⟨n, hn, rfl⟩ := List.mem_map.mp (hpast i t hi hlast hlatest)
        exact checkPastNodeExists_of_mem hn

/-- A node that passes at a level that continues the one before. -/
theorem checkNodes_cons {o : ℕ} {n : CascadeNode} {rest : List CascadeNode}
    (hlevel : n.currentLevel = o ∨ n.currentLevel = o + 1)
    (hok : checkLevels n.txpow (n :: rest) n.currentLevel (isLastNode n.currentLevel rest)
      (cascadeLevels - n.currentLevel) n.currentLevel false = .ok true) :
    checkNodes o (n :: rest) = checkNodes n.currentLevel rest := by
  rw [checkNodes, if_neg (by omega), hok]
  rfl

/-- The nodes that a pass makes of a chain. -/
def pruned (lim : Limits) : List TxPoW → List CascadeNode
  | [] => []
  | tip :: older => keptNode (tip, 0) :: (keep lim TxPoW.getSuperLevel start older).map keptNode

/-- Blocks that came after the last pass, each a node of level zero. -/
def fresh (newer : List TxPoW) : List CascadeNode := newer.map fun t => keptNode (t, 0)

theorem blocks_map_keptNode (ps : List (TxPoW × ℕ)) :
    blocks (ps.map keptNode) = ps.map Prod.fst := by
  rw [blocks, List.map_map]
  rfl

theorem blocks_fresh (newer : List TxPoW) : blocks (fresh newer) = newer := by
  rw [blocks, fresh, List.map_map]
  exact List.map_id' newer

theorem latest_pruned (lim : Limits) (i : ℕ) (older : List TxPoW) :
    latest TxPoW.getSuperLevel i (blocks (pruned lim older)) =
      latest TxPoW.getSuperLevel i older := by
  cases older with
  | nil => rfl
  | cons tip older =>
    rw [pruned, blocks_cons, blocks_map_keptNode]
    by_cases hi : i ≤ tip.getSuperLevel
    · rw [latest_cons_of_le _ hi, latest_cons_of_le _ (show i ≤ (keptNode (tip, 0)).txpow.getSuperLevel
        from hi)]
      rfl
    · rw [not_le] at hi
      rw [latest_cons_of_lt _ hi, latest_cons_of_lt _ (show (keptNode (tip, 0)).txpow.getSuperLevel < i
        from hi)]
      exact latest_kept lim TxPoW.getSuperLevel (s := start) (Nat.zero_le i) older

/-- **The kept nodes of a chain pass,** from any state of the pass that continues the level before. -/
theorem checkNodes_keep (lim : Limits) (older : List TxPoW) (hrule : FollowsRule older)
    (hids : ∀ t ∈ older, t.txPoWID ≠ MiniData.zeroTxPowID) (s : State) (oldlevel : ℕ)
    (hlevel : s.level = oldlevel ∨ s.level = oldlevel + 1) :
    checkNodes oldlevel ((keep lim TxPoW.getSuperLevel s older).map keptNode) = .ok true := by
  induction older generalizing s oldlevel with
  | nil => rfl
  | cons txpow older ih =>
    obtain ⟨hfollows, hrest⟩ := followsRule_cons.mp hrule
    have hids' : ∀ t ∈ older, t.txPoWID ≠ MiniData.zeroTxPowID := fun t ht => hids t (by simp [ht])
    by_cases hs : s.level ≤ txpow.getSuperLevel
    · rw [keep_cons_of_le lim _ hs, List.map_cons]
      have hsup : txpow.getSuperLevel < cascadeLevels := txpow.superBlock.isLt
      set rest := keep lim TxPoW.getSuperLevel (next lim s) older with hrestdef
      have hpast : ∀ j t, s.level ≤ j → (isLastNode s.level (rest.map keptNode) = true → s.level < j) →
          latest TxPoW.getSuperLevel j older = some t →
          t ∈ blocks (keptNode (txpow, s.level) :: rest.map keptNode) := by
        intro j t hj hlast hlatest
        rw [blocks_cons, List.mem_cons, blocks_map_keptNode]
        right
        by_cases hnext : (next lim s).level ≤ j
        · rw [← latest_kept lim TxPoW.getSuperLevel hnext] at hlatest
          exact mem_of_latest _ hlatest
        · -- the level rises behind this node, which is then the last one of its level
          exfalso
          have hrise := next_level lim s
          have hislast : isLastNode s.level (rest.map keptNode) = true := by
            cases hr : rest with
            | nil => rfl
            | cons p ps =>
              have hp : (next lim s).level ≤ p.2 := by
                have hmem : p ∈ keep lim TxPoW.getSuperLevel (next lim s) older := by
                  rw [← hrestdef, hr]
                  exact List.mem_cons_self
                exact level_le_of_mem_keep lim TxPoW.getSuperLevel hmem
              simp only [List.map_cons, isLastNode, keptNode, bne_iff_ne, ne_eq]
              omega
          have := hlast hislast
          omega
      rw [checkNodes_cons (n := keptNode (txpow, s.level)) hlevel]
      · exact ih hrest hids' _ _ (next_level lim s)
      · exact checkLevels_eq_true hfollows hids' hpast (cascadeLevels - s.level) s.level false
          (le_refl _) (by omega) fun hf => nomatch hf
    · rw [keep_cons_of_lt lim _ (not_le.mp hs)]
      exact ih hrest hids' s oldlevel hlevel

/-- **A chain with a fresh part and a pruned part passes.** -/
theorem checkNodes_fresh (lim : Limits) (newer older : List TxPoW) (hrule : FollowsRule (newer ++ older))
    (hids : ∀ t ∈ newer ++ older, t.txPoWID ≠ MiniData.zeroTxPowID) :
    checkNodes 0 (fresh newer ++ pruned lim older) = .ok true := by
  induction newer with
  | nil =>
    cases older with
    | nil => rfl
    | cons tip older =>
      obtain ⟨hfollows, hrest⟩ := followsRule_cons.mp hrule
      have hids' : ∀ t ∈ older, t.txPoWID ≠ MiniData.zeroTxPowID := fun t ht => hids t (by simp [ht])
      show checkNodes 0 (keptNode (tip, 0) :: (keep lim TxPoW.getSuperLevel start older).map keptNode) = _
      rw [checkNodes_cons (o := 0) (n := keptNode (tip, 0)) (.inl rfl)]
      · exact checkNodes_keep lim older hrest hids' start 0 (.inl rfl)
      · refine checkLevels_eq_true hfollows hids' (fun j t _ _ hlatest => ?_) (cascadeLevels - 0) 0 false
          (le_refl _) (by omega) fun hf => nomatch hf
        rw [← latest_kept lim TxPoW.getSuperLevel (s := start) (Nat.zero_le j)] at hlatest
        rw [blocks_cons, List.mem_cons, blocks_map_keptNode]
        exact .inr (mem_of_latest _ hlatest)
  | cons txpow newer ih =>
    rw [List.cons_append] at hrule
    obtain ⟨hfollows, hrest⟩ := followsRule_cons.mp hrule
    have hids' : ∀ t ∈ newer ++ older, t.txPoWID ≠ MiniData.zeroTxPowID :=
      fun t ht => hids t (List.mem_cons_of_mem _ ht)
    show checkNodes 0 (keptNode (txpow, 0) :: (fresh newer ++ pruned lim older)) = _
    rw [checkNodes_cons (o := 0) (n := keptNode (txpow, 0)) (.inl rfl)]
    · exact ih hrest hids'
    · refine checkLevels_eq_true hfollows hids' (fun j t _ _ hlatest => ?_) (cascadeLevels - 0) 0 false
        (le_refl _) (by omega) fun hf => nomatch hf
      -- what is behind this node answers as the whole chain behind it does
      rw [latest_append, ← latest_pruned lim j older, ← blocks_fresh newer, ← latest_append,
        ← blocks_append] at hlatest
      rw [blocks_cons, List.mem_cons]
      exact .inr (mem_of_latest _ hlatest)

/-- A pass that returns leaves the pruned chain. -/
theorem Stands.nodes_of_finalCascade {levelNodes : ℕ} {c c' : Cascade} {full : List TxPoW}
    (h : Stands (limits levelNodes) c.nodes full) (hc : c.finalCascade levelNodes = .ok c') :
    c'.nodes = pruned (limits levelNodes) full := by
  cases c with
  | mk nodes total =>
    unfold finalCascade at hc
    cases h with
    | empty =>
      cases hc
      rfl
    | @tip tip ns fs level same =>
      cases hw : tipWeight tip with
      | error e =>
        rw [cascadeChain_of_tip_error hw] at hc
        cases hc
      | ok w =>
        cases hl : (cascadeLoop (limits levelNodes) start w ns).2 with
        | error e =>
          rw [cascadeChain_of_error hw hl] at hc
          cases hc
        | ok t =>
          rw [cascadeChain_of_ok hw hl] at hc
          cases hc
          show tip :: _ = _
          rw [cascadeLoop_fst_of_ok _ hl, same start (State.le_refl _), pruned]
          congr 1
          rw [← level]
          exact eq_keptNode tip

/-- **The cascade holds a chain:** the part that came after the last pass as it is, and the part before
it pruned. -/
def Holds (levelNodes : ℕ) (c : Cascade) (full : List TxPoW) : Prop :=
  ∃ newer older, full = newer ++ older ∧ c.nodes = fresh newer ++ pruned (limits levelNodes) older

theorem Holds.callReturning {levelNodes : ℕ} {c c' : Cascade} {full : List TxPoW} {one : Call}
    (hh : Holds levelNodes c full) (hs : Stands (limits levelNodes) c.nodes full)
    (hc : c.callReturning levelNodes one = .ok c') :
    Holds levelNodes c' ((added [one]).reverse.map TxPoW.clearBody ++ full) := by
  cases one with
  | addToTip zTxPoW =>
    cases hc
    obtain ⟨newer, older, hfull, hnodes⟩ := hh
    refine ⟨zTxPoW.clearBody :: newer, older, by rw [hfull]; rfl, ?_⟩
    show CascadeNode.ofTxPoW zTxPoW :: c.nodes = _
    rw [hnodes]
    rfl
  | cascadeChain => exact ⟨[], full, rfl, hs.nodes_of_finalCascade hc⟩

theorem Stands.callReturning {levelNodes : ℕ} {c c' : Cascade} {full : List TxPoW} {one : Call}
    (hs : Stands (limits levelNodes) c.nodes full) (hc : c.callReturning levelNodes one = .ok c') :
    Stands (limits levelNodes) c'.nodes ((added [one]).reverse.map TxPoW.clearBody ++ full) := by
  have hcall : c' = c.call levelNodes one := by
    cases one with
    | addToTip zTxPoW =>
      cases hc
      rfl
    | cascadeChain =>
      show c' = (c.cascadeChain levelNodes).1
      rw [Cascade.callReturning, finalCascade] at hc
      split at hc
      · next c'' hcc =>
        cases hc
        rw [hcc]
      · cases hc
  rw [hcall]
  exact hs.call one

theorem Holds.runReturning {levelNodes : ℕ} (calls : List Call) {c c' : Cascade} {full : List TxPoW}
    (hh : Holds levelNodes c full) (hs : Stands (limits levelNodes) c.nodes full)
    (hc : c.runReturning levelNodes calls = .ok c') :
    Holds levelNodes c' ((added calls).reverse.map TxPoW.clearBody ++ full) := by
  induction calls generalizing c full with
  | nil =>
    cases hc
    exact hh
  | cons one calls ih =>
    rw [Cascade.runReturning, List.foldlM_cons] at hc
    obtain ⟨c1, h1, hc⟩ := Result.bind_eq_ok.mp hc
    rw [added_cons, List.reverse_append, List.map_append, List.append_assoc]
    exact ih (hh.callReturning hs h1) (hs.callReturning h1) hc

theorem followsRule_map_clearBody {chain : List TxPoW} (h : FollowsRule chain) :
    FollowsRule (chain.map TxPoW.clearBody) := by
  induction chain with
  | nil => trivial
  | cons txpow older ih =>
    obtain ⟨hfollows, hrest⟩ := followsRule_cons.mp h
    refine followsRule_cons.mpr ⟨fun i => ?_, ih hrest⟩
    rw [latestID_map_clearBody]
    exact hfollows i

/-- **A node's own cascade is acceptable.** When every block of a chain satisfies `checkParents` on
the whole chain before it, the cascade that any calls make of the chain passes `checkCascadeCorrect`.
An id is a SHA3-256 hash and so never the single byte `0x00`, which stands for no block. -/
theorem checkCascadeCorrect_of_runReturning (levelNodes : ℕ) (calls : List Call) (c : Cascade)
    (hrule : FollowsRule (added calls).reverse)
    (hids : ∀ t ∈ added calls, t.txPoWID ≠ MiniData.zeroTxPowID)
    (hrun : empty.runReturning levelNodes calls = .ok c) :
    c.checkCascadeCorrect = .ok true := by
  have hholds : Holds levelNodes empty [] := ⟨[], [], rfl, rfl⟩
  obtain ⟨newer, older, hfull, hnodes⟩ := hholds.runReturning calls .empty hrun
  rw [List.append_nil] at hfull
  have hcheck : checkNodes 0 c.nodes = .ok true := by
    rw [hnodes]
    apply checkNodes_fresh
    · rw [← hfull]
      exact followsRule_map_clearBody hrule
    · rw [← hfull]
      intro t ht
      obtain ⟨t', ht', rfl⟩ := List.mem_map.mp ht
      exact hids t' (List.mem_reverse.mp ht')
  rw [checkCascadeCorrect]
  cases htip : c.getTip with
  | none => rfl
  | some tip =>
    have hlevel : tip.currentLevel = 0 := by
      rw [getTip, hnodes] at htip
      cases newer with
      | cons t newer =>
        cases htip
        rfl
      | nil =>
        cases older with
        | nil => cases htip
        | cons t older =>
          cases htip
          rfl
    simp only [hlevel, ne_eq, not_true_eq_false, if_false]
    exact hcheck

open TxPoWGenerator (sampleFirst sampleSecond)

/-- A block of super level zero on a chain that began with the first one and has only such blocks since. -/
def sampleOn (number : ℕ) (hnumber : number < 10 ^ 64) (parent : TxPoW) : TxPoW :=
  TxPoW.sample [UInt8.ofNat number] number 0 (fun i =>
    if (i : ℕ) = 0 then parent.txPoWID
    else if (i : ℕ) = 1 then sampleFirst.txPoWID
    else MiniData.zeroTxPowID) hnumber

def sampleThird : TxPoW := sampleOn 3 TxPoW.three_lt_limit sampleSecond

def sampleFourth : TxPoW := sampleOn 4 TxPoW.four_lt_limit sampleThird

/-- Four blocks and two passes with one node for each level. -/
def sampleCalls : List Call :=
  [.addToTip sampleFirst, .addToTip sampleSecond, .cascadeChain, .addToTip sampleThird, .addToTip sampleFourth,
    .cascadeChain]

/-- The second pass drops the second block. -/
theorem checkCascadeCorrect_of_runReturning_sample :
    ∃ c, empty.runReturning 1 sampleCalls = .ok c ∧
      (blocks c.nodes).map TxPoW.txPoWID = [⟨[4]⟩, ⟨[3]⟩, ⟨[1]⟩] ∧
      c.checkCascadeCorrect = .ok true := by
  have hok : (empty.runReturning 1 sampleCalls).toOption.map (fun c => (blocks c.nodes).map TxPoW.txPoWID) =
      some [⟨[4]⟩, ⟨[3]⟩, ⟨[1]⟩] := by
    decide +kernel
  cases hrun : empty.runReturning 1 sampleCalls with
  | error e =>
    rw [hrun] at hok
    cases hok
  | ok c =>
    rw [hrun] at hok
    refine ⟨c, rfl, Option.some.inj hok, checkCascadeCorrect_of_runReturning 1 sampleCalls c ?_ ?_ hrun⟩
    · show FollowsRule [sampleFourth, sampleThird, sampleSecond, sampleFirst]
      rw [followsRule_cons, followsRule_cons, followsRule_cons, followsRule_cons]
      refine ⟨?_, ?_, ?_, ?_, trivial⟩ <;> decide +kernel
    · decide +kernel

end Cascade

end Minima
