import Minima.Lib.LevelScan
import Minima.Objects.TxPoW

/-! # `Cascade`: the blocks behind the tree, thinned out by super level

Blocks that leave the tree go onto the tip of the cascade. `cascadeChain` walks from the tip to the
root with a level that rises by one after every `MINIMA_CASCADE_LEVEL_NODES` kept blocks, and drops
every block whose super level is below it.

* **`Cascade.cascadeChain`** — the pass of the source, with the state it leaves when it throws.
* **`Cascade.Stands`** — the blocks of the cascade stand for a longer chain: every later pass keeps
  the same of both.
* **`cascadeChain_confluent`** — when the passes are made does not matter. -/

namespace Minima

/-- `CascadeNode`: the header of a block, its super level as the constructor captured it, and the
level it is kept at. -/
structure CascadeNode where
  txpow : TxPoW
  superLevel : ℕ
  currentLevel : ℕ
  superLevel_eq : superLevel = txpow.getSuperLevel
  deriving DecidableEq

namespace CascadeNode

/-- The constructor: a copy without the body, at level zero. The copy is taken by writing the block
and reading it back; the blocks of the tree were themselves taken in that way, so it succeeds and
calculates the same id, weight and super level. -/
def ofTxPoW (zTxPoW : TxPoW) : CascadeNode := ⟨zTxPoW.clearBody, zTxPoW.getSuperLevel, 0, rfl⟩

/-- `setLevel`. -/
def setLevel (n : CascadeNode) (zLevel : ℕ) : CascadeNode := { n with currentLevel := zLevel }

/-- `getCurrentWeight` of a block at a level: its weight times `2^level`, to seven digits, as text. -/
def getCurrentWeight (txpow : TxPoW) (level : ℕ) : Result Text := do
  let weight ← MiniNumber.ofText txpow.blockWeight
  let factor ← MiniNumber.two.pow level
  let result ← weight.mult factor
  let rounded ← result.setSignificantDigits 7
  return rounded.toText

end CascadeNode

/-- `Cascade`: the nodes from the tip to the root, and the total weight of the last pass. -/
structure Cascade where
  nodes : List CascadeNode
  totalWeight : MiniNumber
  deriving DecidableEq

namespace Cascade

open LevelScan

/-- The cascade of the default constructor. -/
def empty : Cascade := ⟨[], .zero⟩

/-- `getTip`. -/
def getTip (c : Cascade) : Option CascadeNode := c.nodes.head?

/-- `getLength`. -/
def getLength (c : Cascade) : ℕ := c.nodes.length

/-- `addToTip`. -/
def addToTip (c : Cascade) (zTxPoW : TxPoW) : Cascade :=
  { c with nodes := CascadeNode.ofTxPoW zTxPoW :: c.nodes }

/-- `MINIMA_CASCADE_LEVELS` and `MINIMA_CASCADE_LEVEL_NODES`: the second is 256 in the main net and 4
in the test net, and `levelNodes` here. -/
def limits (levelNodes : ℕ) : Limits := ⟨cascadeLevels, levelNodes⟩

/-- The state of a pass behind the tip, which counts as the first node of level zero. -/
def start : State := ⟨0, 1⟩

/-- A kept node and its weight, added to the total. -/
def addWeight (total : MiniNumber) (txpow : TxPoW) (level : ℕ) : Result MiniNumber := do
  let text ← CascadeNode.getCurrentWeight txpow level
  let weight ← MiniNumber.ofText text
  total.add weight

/-- The `while` loop of `cascadeChain` over the nodes behind the tip: the nodes it leaves, and the
total weight. A node is linked in before its weight is added, so where the weight throws, what comes
behind it is still in place. -/
def cascadeLoop (lim : Limits) : State → MiniNumber → List CascadeNode →
    List CascadeNode × Result MiniNumber
  | _, total, [] => ([], .ok total)
  | s, total, current :: rest =>
    if s.level ≤ current.superLevel then
      let current := current.setLevel s.level
      match addWeight total current.txpow s.level with
      | .error e => (current :: rest, .error e)
      | .ok total =>
        let (nodes, out) := cascadeLoop lim (next lim s) total rest
        (current :: nodes, out)
    else cascadeLoop lim s total rest

/-- The weight of the tip, from which the total starts. -/
def tipWeight (tip : CascadeNode) : Result MiniNumber := do
  let text ← CascadeNode.getCurrentWeight tip.txpow tip.currentLevel
  MiniNumber.ofText text

/-- **`cascadeChain`**: the cascade it leaves behind, and what it throws. -/
def cascadeChain (levelNodes : ℕ) (c : Cascade) : Cascade × Option Fault :=
  match c.nodes with
  | [] => (c, none)
  | tip :: rest =>
    match tipWeight tip with
    | .error e => (c, some e)
    | .ok weight =>
      match cascadeLoop (limits levelNodes) start weight rest with
      | (nodes, .ok total) => (⟨tip :: nodes, total⟩, none)
      | (nodes, .error e) => (⟨tip :: nodes, c.totalWeight⟩, some e)

/-- What a pass comes to: the cascade when it returns, and else what it throws. -/
def finalCascade (levelNodes : ℕ) (c : Cascade) : Result Cascade :=
  match c.cascadeChain levelNodes with
  | (c', none) => .ok c'
  | (_, some e) => .error e

/-! ## Runs -/

/-- The calls that change a cascade. -/
inductive Call where
  | addToTip (zTxPoW : TxPoW)
  | cascadeChain

/-- One call; the callers catch what it throws. -/
def call (levelNodes : ℕ) (c : Cascade) : Call → Cascade
  | .addToTip zTxPoW => c.addToTip zTxPoW
  | .cascadeChain => (c.cascadeChain levelNodes).1

/-- Calls one after the other. -/
def run (levelNodes : ℕ) (calls : List Call) (c : Cascade) : Cascade :=
  calls.foldl (call levelNodes) c

/-- The blocks that the calls add, in order. -/
def added : List Call → List TxPoW
  | [] => []
  | .addToTip zTxPoW :: calls => zTxPoW :: added calls
  | .cascadeChain :: calls => added calls

/-- A whole chain added without a pass. -/
def addAll (chain : List TxPoW) (c : Cascade) : Cascade := chain.foldl addToTip c

/-! ## One pass -/

/-- The node of a block that a pass keeps at a level. -/
def keptNode (p : TxPoW × ℕ) : CascadeNode := ⟨p.1, p.1.getSuperLevel, p.2, rfl⟩

/-- The blocks of nodes. -/
def blocks (nodes : List CascadeNode) : List TxPoW := nodes.map CascadeNode.txpow

@[simp] theorem blocks_cons (n : CascadeNode) (ns : List CascadeNode) :
    blocks (n :: ns) = n.txpow :: blocks ns := rfl

@[simp] theorem blocks_append (ns ms : List CascadeNode) :
    blocks (ns ++ ms) = blocks ns ++ blocks ms := List.map_append

@[simp] theorem setLevel_txpow (n : CascadeNode) (level : ℕ) : (n.setLevel level).txpow = n.txpow := rfl

theorem setLevel_eq_keptNode (n : CascadeNode) (level : ℕ) :
    n.setLevel level = keptNode (n.txpow, level) := by
  cases n with
  | mk txpow superLevel currentLevel h =>
    subst h
    rfl

/-- A node is its block and its level. -/
theorem eq_keptNode (n : CascadeNode) : n = keptNode (n.txpow, n.currentLevel) :=
  setLevel_eq_keptNode n n.currentLevel

section Pass

variable (lim : Limits)

section Step

variable {lim : Limits} {s : State} {total : MiniNumber} {n : CascadeNode} (ns : List CascadeNode)

theorem cascadeLoop_of_lt (h : n.superLevel < s.level) :
    cascadeLoop lim s total (n :: ns) = cascadeLoop lim s total ns := by
  rw [cascadeLoop, if_neg (not_le.mpr h)]

theorem cascadeLoop_of_error {e : Fault} (h : s.level ≤ n.superLevel)
    (hw : addWeight total n.txpow s.level = .error e) :
    cascadeLoop lim s total (n :: ns) = (n.setLevel s.level :: ns, .error e) := by
  rw [cascadeLoop, if_pos h]
  simp only [setLevel_txpow, hw]

theorem cascadeLoop_of_ok {t : MiniNumber} (h : s.level ≤ n.superLevel)
    (hw : addWeight total n.txpow s.level = .ok t) :
    cascadeLoop lim s total (n :: ns) =
      (n.setLevel s.level :: (cascadeLoop lim (next lim s) t ns).1,
        (cascadeLoop lim (next lim s) t ns).2) := by
  rw [cascadeLoop, if_pos h]
  simp only [setLevel_txpow, hw]

end Step

/-- The total weight is the sum over the kept nodes, in order, and throws where that does. -/
theorem cascadeLoop_snd (s : State) (total : MiniNumber) (nodes : List CascadeNode) :
    (cascadeLoop lim s total nodes).2 =
      (keep lim TxPoW.getSuperLevel s (blocks nodes)).foldlM (fun tot p => addWeight tot p.1 p.2)
        total := by
  induction nodes generalizing s total with
  | nil => rfl
  | cons n ns ih =>
    rw [blocks_cons]
    by_cases h : s.level ≤ n.superLevel
    · rw [keep_cons_of_le lim _ (n.superLevel_eq ▸ h), List.foldlM_cons]
      cases hw : addWeight total n.txpow s.level with
      | error e =>
        rw [cascadeLoop_of_error ns h hw]
        rfl
      | ok t =>
        rw [cascadeLoop_of_ok ns h hw]
        exact ih _ _
    · rw [not_le] at h
      rw [cascadeLoop_of_lt ns h, keep_cons_of_lt lim _ (n.superLevel_eq ▸ h)]
      exact ih _ _

/-- A pass that returns leaves exactly the kept nodes at their levels. -/
theorem cascadeLoop_fst_of_ok {s : State} {total t : MiniNumber} {nodes : List CascadeNode}
    (h : (cascadeLoop lim s total nodes).2 = .ok t) :
    (cascadeLoop lim s total nodes).1 =
      (keep lim TxPoW.getSuperLevel s (blocks nodes)).map keptNode := by
  induction nodes generalizing s total with
  | nil => rfl
  | cons n ns ih =>
    rw [blocks_cons]
    by_cases hs : s.level ≤ n.superLevel
    · rw [keep_cons_of_le lim _ (n.superLevel_eq ▸ hs), List.map_cons]
      cases hw : addWeight total n.txpow s.level with
      | error e =>
        rw [cascadeLoop_of_error ns hs hw] at h
        cases h
      | ok u =>
        rw [cascadeLoop_of_ok ns hs hw] at h ⊢
        rw [ih h, setLevel_eq_keptNode]
    · rw [not_le] at hs
      rw [cascadeLoop_of_lt ns hs] at h ⊢
      rw [keep_cons_of_lt lim _ (n.superLevel_eq ▸ hs)]
      exact ih h

/-- A pass, whether it returns or not, thins out a front part of the nodes and leaves the rest. -/
theorem cascadeLoop_fst (s : State) (total : MiniNumber) (nodes : List CascadeNode) :
    ∃ front rest, blocks nodes = front ++ rest ∧
      blocks (cascadeLoop lim s total nodes).1 = kept lim TxPoW.getSuperLevel s front ++ rest := by
  induction nodes generalizing s total with
  | nil => exact ⟨[], [], rfl, rfl⟩
  | cons n ns ih =>
    rw [blocks_cons]
    by_cases hs : s.level ≤ n.superLevel
    · have hsup : s.level ≤ n.txpow.getSuperLevel := n.superLevel_eq ▸ hs
      cases hw : addWeight total n.txpow s.level with
      | error e =>
        -- the node that throws is already linked in
        refine ⟨[n.txpow], blocks ns, rfl, ?_⟩
        rw [cascadeLoop_of_error ns hs hw, kept_cons_of_le lim _ hsup]
        rfl
      | ok u =>
        obtain ⟨front, rest, h1, h2⟩ := ih (next lim s) u
        refine ⟨n.txpow :: front, rest, by rw [h1, List.cons_append], ?_⟩
        rw [cascadeLoop_of_ok ns hs hw, blocks_cons, h2, kept_cons_of_le lim _ hsup, setLevel_txpow,
          List.cons_append]
    · rw [not_le] at hs
      obtain ⟨front, rest, h1, h2⟩ := ih s total
      refine ⟨n.txpow :: front, rest, by rw [h1, List.cons_append], ?_⟩
      rw [cascadeLoop_of_lt ns hs, h2, kept_cons_of_lt lim _ (n.superLevel_eq ▸ hs)]

end Pass

section Chain

variable {levelNodes : ℕ} {tip : CascadeNode} {ns : List CascadeNode} {total w : MiniNumber}

@[simp] theorem cascadeChain_nil : cascadeChain levelNodes ⟨[], total⟩ = (⟨[], total⟩, none) := rfl

theorem cascadeChain_of_tip_error {e : Fault} (hw : tipWeight tip = .error e) :
    cascadeChain levelNodes ⟨tip :: ns, total⟩ = (⟨tip :: ns, total⟩, some e) := by
  simp only [cascadeChain, hw]

theorem cascadeChain_of_ok {t : MiniNumber} (hw : tipWeight tip = .ok w)
    (hl : (cascadeLoop (limits levelNodes) start w ns).2 = .ok t) :
    cascadeChain levelNodes ⟨tip :: ns, total⟩ =
      (⟨tip :: (cascadeLoop (limits levelNodes) start w ns).1, t⟩, none) := by
  cases h : cascadeLoop (limits levelNodes) start w ns with
  | mk nodes out =>
    rw [h] at hl
    subst hl
    simp only [cascadeChain, hw, h]

theorem cascadeChain_of_error {e : Fault} (hw : tipWeight tip = .ok w)
    (hl : (cascadeLoop (limits levelNodes) start w ns).2 = .error e) :
    cascadeChain levelNodes ⟨tip :: ns, total⟩ =
      (⟨tip :: (cascadeLoop (limits levelNodes) start w ns).1, total⟩, some e) := by
  cases h : cascadeLoop (limits levelNodes) start w ns with
  | mk nodes out =>
    rw [h] at hl
    subst hl
    simp only [cascadeChain, hw, h]

end Chain

/-! ## Confluence -/

/-- **The nodes stand for a chain:** they have its tip, at level zero, and whatever later pass runs
over both keeps the same blocks. -/
inductive Stands (lim : Limits) : List CascadeNode → List TxPoW → Prop
  | empty : Stands lim [] []
  | tip {tip : CascadeNode} {ns : List CascadeNode} {fs : List TxPoW} (level : tip.currentLevel = 0)
      (same : ∀ t, start ≤ t →
        keep lim TxPoW.getSuperLevel t (blocks ns) = keep lim TxPoW.getSuperLevel t fs) :
      Stands lim (tip :: ns) (tip.txpow :: fs)

theorem Stands.addToTip {lim : Limits} {c : Cascade} {full : List TxPoW} (h : Stands lim c.nodes full)
    (zTxPoW : TxPoW) : Stands lim (c.addToTip zTxPoW).nodes (zTxPoW.clearBody :: full) := by
  show Stands lim (CascadeNode.ofTxPoW zTxPoW :: c.nodes)
    ((CascadeNode.ofTxPoW zTxPoW).txpow :: full)
  refine .tip rfl fun t ht => ?_
  cases c with
  | mk nodes total =>
    cases h with
    | empty => rfl
    | @tip tip ns fs level same =>
      rw [blocks_cons]
      by_cases hs : t.level ≤ tip.txpow.getSuperLevel
      · rw [keep_cons_of_le lim _ hs, keep_cons_of_le lim _ hs,
          same _ (State.le_trans ht (le_next lim t))]
      · rw [not_le] at hs
        rw [keep_cons_of_lt lim _ hs, keep_cons_of_lt lim _ hs, same t ht]

theorem Stands.cascadeChain {levelNodes : ℕ} {c : Cascade} {full : List TxPoW}
    (h : Stands (limits levelNodes) c.nodes full) :
    Stands (limits levelNodes) (c.cascadeChain levelNodes).1.nodes full := by
  cases c with
  | mk nodes total =>
    cases h with
    | empty => exact .empty
    | @tip tip ns fs level same =>
      cases hw : tipWeight tip with
      | error e =>
        rw [cascadeChain_of_tip_error hw]
        exact .tip level same
      | ok w =>
        obtain ⟨front, rest, h1, h2⟩ := cascadeLoop_fst (limits levelNodes) start w ns
        have hsame : ∀ t, start ≤ t → keep (limits levelNodes) TxPoW.getSuperLevel t
            (blocks (cascadeLoop (limits levelNodes) start w ns).1) =
              keep (limits levelNodes) TxPoW.getSuperLevel t fs := by
          intro t ht
          rw [h2, keep_kept_append _ _ ht, ← h1, same t ht]
        cases hl : (cascadeLoop (limits levelNodes) start w ns).2 with
        | ok t =>
          rw [cascadeChain_of_ok hw hl]
          exact .tip level hsame
        | error e =>
          rw [cascadeChain_of_error hw hl]
          exact .tip level hsame

theorem Stands.call {levelNodes : ℕ} {c : Cascade} {full : List TxPoW}
    (h : Stands (limits levelNodes) c.nodes full) (calls : Call) :
    Stands (limits levelNodes) (c.call levelNodes calls).nodes
      ((added [calls]).reverse.map TxPoW.clearBody ++ full) := by
  cases calls with
  | addToTip zTxPoW => exact h.addToTip zTxPoW
  | cascadeChain => exact h.cascadeChain

theorem added_cons (one : Call) (calls : List Call) : added (one :: calls) = added [one] ++ added calls := by
  cases one <;> rfl

/-- After any calls the cascade stands for all the blocks it was given. -/
theorem Stands.run {levelNodes : ℕ} (calls : List Call) {c : Cascade} {full : List TxPoW}
    (h : Stands (limits levelNodes) c.nodes full) :
    Stands (limits levelNodes) (c.run levelNodes calls).nodes
      ((added calls).reverse.map TxPoW.clearBody ++ full) := by
  induction calls generalizing c full with
  | nil => exact h
  | cons one calls ih =>
    rw [added_cons, List.reverse_append, List.map_append, List.append_assoc]
    exact ih (h.call one)

theorem added_map_addToTip (chain : List TxPoW) : added (chain.map Call.addToTip) = chain := by
  induction chain with
  | nil => rfl
  | cons t chain ih => rw [List.map_cons, added, ih]

theorem addAll_eq_run (levelNodes : ℕ) (chain : List TxPoW) (c : Cascade) :
    c.addAll chain = c.run levelNodes (chain.map Call.addToTip) := by
  rw [addAll, Cascade.run, List.foldl_map]
  rfl

/-- **A pass over nodes that stand for the same chain comes out the same.** -/
theorem Stands.finalCascade_eq {levelNodes : ℕ} {c d : Cascade} {full : List TxPoW}
    (hc : Stands (limits levelNodes) c.nodes full) (hd : Stands (limits levelNodes) d.nodes full)
    (htotal : full = [] → c.totalWeight = d.totalWeight) :
    c.finalCascade levelNodes = d.finalCascade levelNodes := by
  cases c with
  | mk cnodes ctotal =>
    cases d with
    | mk dnodes dtotal =>
      generalize hfull : full = fulls at hc hd
      cases hc with
      | empty =>
        cases hd with
        | empty =>
          obtain rfl := htotal hfull
          rfl
      | @tip tip ns fs level same =>
        generalize htip : tip.txpow = txpow at hd
        cases hd with
        | @tip tip' ns' fs' level' same' =>
          -- the tips are the same block at the same level, and the loops keep the same of the rest
          obtain rfl : tip = tip' := by rw [eq_keptNode tip, eq_keptNode tip', htip, level, level']
          have hkeep := (same start (State.le_refl _)).trans (same' start (State.le_refl _)).symm
          unfold finalCascade
          cases hw : tipWeight tip with
          | error e => rw [cascadeChain_of_tip_error hw, cascadeChain_of_tip_error hw]
          | ok w =>
            have hout : (cascadeLoop (limits levelNodes) start w ns).2 =
                (cascadeLoop (limits levelNodes) start w ns').2 := by
              rw [cascadeLoop_snd, cascadeLoop_snd, hkeep]
            cases hl : (cascadeLoop (limits levelNodes) start w ns).2 with
            | error e => rw [cascadeChain_of_error hw hl, cascadeChain_of_error hw (hout ▸ hl)]
            | ok t =>
              rw [cascadeChain_of_ok hw hl, cascadeChain_of_ok hw (hout ▸ hl),
                cascadeLoop_fst_of_ok _ hl, cascadeLoop_fst_of_ok _ (hout ▸ hl), hkeep]

/-- Calls that add nothing leave the empty cascade as it is. -/
theorem run_empty_of_added_nil {levelNodes : ℕ} {calls : List Call} (h : added calls = []) :
    empty.run levelNodes calls = empty := by
  induction calls with
  | nil => rfl
  | cons one calls ih =>
    cases one with
    | addToTip zTxPoW => simp [added] at h
    | cascadeChain => exact ih h

theorem stands_run_empty (levelNodes : ℕ) (calls : List Call) :
    Stands (limits levelNodes) (empty.run levelNodes calls).nodes
      ((added calls).reverse.map TxPoW.clearBody) := by
  have hempty : Stands (limits levelNodes) empty.nodes [] := .empty
  have h := hempty.run calls
  rwa [List.append_nil] at h

/-- **Confluence.** Whenever and however often passes are made while a chain is added, caught
exceptions included, a last pass gives the same cascade (nodes, levels, length and total weight), or
throws the same, as adding the whole chain and making one pass; and a pass after a pass changes
nothing. -/
theorem cascadeChain_confluent (levelNodes : ℕ) (calls : List Call) :
    (empty.run levelNodes calls).finalCascade levelNodes =
        (empty.addAll (added calls)).finalCascade levelNodes ∧
      ((empty.run levelNodes calls).finalCascade levelNodes >>= finalCascade levelNodes) =
        (empty.run levelNodes calls).finalCascade levelNodes := by
  constructor
  · have hc := stands_run_empty levelNodes calls
    have hd := stands_run_empty levelNodes ((added calls).map Call.addToTip)
    rw [added_map_addToTip, ← addAll_eq_run] at hd
    refine hc.finalCascade_eq hd fun hnil => ?_
    have hadded : added calls = [] := by simpa using hnil
    rw [run_empty_of_added_nil hadded, hadded]
    rfl
  · cases hfinal : (empty.run levelNodes calls).finalCascade levelNodes with
    | error e => rfl
    | ok c =>
      -- the pass that returned was one more call of the run
      have hc : (empty.run levelNodes calls).cascadeChain levelNodes = (c, none) := by
        unfold finalCascade at hfinal
        split at hfinal
        · next c' h =>
          cases hfinal
          exact h
        · cases hfinal
      have hstands := stands_run_empty levelNodes calls
      have hagain := hstands.cascadeChain
      rw [hc] at hagain
      show c.finalCascade levelNodes = _
      rw [← hfinal]
      refine hagain.finalCascade_eq hstands fun hnil => ?_
      have hadded : added calls = [] := by simpa using hnil
      rw [run_empty_of_added_nil hadded] at hc ⊢
      rw [← (Prod.mk.inj hc).1]

end Cascade

end Minima
