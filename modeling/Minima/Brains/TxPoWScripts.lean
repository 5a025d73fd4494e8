import Minima.Kissvm.MeteredRun
import Minima.Objects.TxPoW

/-! # `checkTxPoWScripts`: the scripts of a `TxPoW`, and the verdict kept for later blocks

The scripts of the inputs run in the context of a block. When none of them read a global that changes
from block to block, the transaction is marked as checked and monotonic, and every later check of the
same object returns the verdict of the first one.

* **`TxPoWChecker.checkTxPoWScripts`** — the check, with the flags it leaves on the two transactions.
* **`TxPoWChecker.Plan`** — what a check does with the block taken out of it.
* **`checkTxPoWScripts_kept_iff`** — the kept verdict is right exactly when the limit on instructions
  and the ages of the coins, which also change from block to block, make no difference. -/

namespace Minima

/-- The flags of a `Transaction` that keep the verdict on its scripts. -/
structure ScriptCache where
  haveCheckedMonotonic : Bool
  isMonotonic : Bool
  isValid : Bool
  deriving DecidableEq

namespace ScriptCache

/-- The flags of a new transaction. -/
def fresh : ScriptCache := ⟨false, false, false⟩

/-- `isCheckedMonotonic`. -/
def isCheckedMonotonic (c : ScriptCache) : Bool := c.haveCheckedMonotonic && c.isMonotonic

end ScriptCache

namespace TxPoWChecker

/-- Cut blanks and line ends off both ends. -/
def trim (s : Text) : Text :=
  let blank : Byte → Bool := fun b => (MiniNumber.ascii " \t\r\n").contains b
  ((s.dropWhile blank).reverse.dropWhile blank).reverse

section Scripts

variable (C : Crypto) (parse : Contract.Parser)

/-! ## The check -/

/-- The `Contract` constructor, behind the copy of the coin that its previous state comes from. -/
def construct (zTransaction : Transaction) (zWitness : Witness) (coin : Coin) (script : Text) :
    Result Contract.Script :=
  match coin.deepCopy with
  | none => undefinedBehaviour "null Coin"
  | some copy => do
    let keys ← zWitness.getAllSignatureKeys C
    return parse script keys zWitness zTransaction copy.state

/-- A contract for input `i`: made, limited, given its globals and run. -/
def runScript (zTransaction : Transaction) (zWitness : Witness) (zBlock : TxPoW) (i : ℕ) (coin : Coin)
    (script : Text) : Result (Bool × Bool) := do
  let contract ← construct C parse zTransaction zWitness coin script
  let globals ← Contract.setGlobals zBlock.getBlockNumber zBlock.getTimeMilli zTransaction i
    coin.blockCreated.val script
  return Contract.run zBlock.getMagic.getMaxKISSOps.getAsInt globals contract

/-- The token script of a coin, behind its own script: nothing to do for Minima, and none that just
returns true. -/
def checkTokenScript (zTransaction : Transaction) (zWitness : Witness) (zBlock : TxPoW) (i : ℕ)
    (coin : Coin) : Result Bool × Bool :=
  if coin.tokenID.isEqual Token.TOKENID_MINIMA then (.ok true, true)
  else
    match coin.token with
    | none => (.ok false, true)
    | some tok =>
      let tokscript := trim tok.tokenScript
      if tokscript = MiniNumber.ascii "RETURN TRUE" then (.ok true, true)
      else
        match runScript C parse zTransaction zWitness zBlock i coin tokscript with
        | .error e => (.error e, true)
        | .ok (success, mono) => (.ok success, mono)

/-- The body of the loop for input `i`: whether the input passes, and whether `mIsMonotonic` stays. -/
def checkInput (zTransaction : Transaction) (zWitness : Witness) (zBlock : TxPoW) (i : ℕ) :
    Option CoinProof → Result Bool × Bool
  | none => (undefinedBehaviour "null CoinProof", true)
  | some cproof =>
    match zWitness.getScript cproof.coin.address with
    | none => (.ok false, true)
    | some prfs =>
      match runScript C parse zTransaction zWitness zBlock i cproof.coin prfs.script with
      | .error e => (.error e, true)
      | .ok (false, mono) => (.ok false, mono)
      | .ok (true, mono) =>
        let token := checkTokenScript C parse zTransaction zWitness zBlock i cproof.coin
        (token.1, mono && token.2)

/-- The loop over the coin proofs. -/
def checkInputs (zTransaction : Transaction) (zWitness : Witness) (zBlock : TxPoW) :
    ℕ → List (Option CoinProof) → Result Bool × Bool
  | _, [] => (.ok true, true)
  | i, p :: ps =>
    match checkInput C parse zTransaction zWitness zBlock i p with
    | (.ok true, mono) =>
      let rest := checkInputs zTransaction zWitness zBlock (i + 1) ps
      (rest.1, mono && rest.2)
    | failed => failed

/-- `checkTxPoWScripts_impl`: the verdict, and the flags afterwards. They are set before the scripts
run, so an exception leaves `mIsValid` false. -/
def checkTxPoWScripts_impl (zTransaction : Transaction) (zWitness : Witness) (zBlock : TxPoW)
    (cache : ScriptCache) : Result Bool × ScriptCache :=
  if cache.isCheckedMonotonic then (.ok cache.isValid, cache)
  else if zTransaction.isEmpty then (.ok true, ⟨true, true, true⟩)
  else if zWitness.coinProofs.length ≠ zTransaction.inputs.length then (.ok false, ⟨true, true, false⟩)
  else
    let checked := checkInputs C parse zTransaction zWitness zBlock 0 zWitness.coinProofs
    (checked.1, ⟨true, checked.2, decide (checked.1 = .ok true)⟩)

/-- `checkTxPoWScripts`: the main transaction, then the burn transaction. -/
def checkTxPoWScripts (b : TxBody) (zBlock : TxPoW) (caches : ScriptCache × ScriptCache) :
    Result Bool × ScriptCache × ScriptCache :=
  let main := checkTxPoWScripts_impl C parse b.transaction b.witness zBlock caches.1
  if main.1 = .ok true then
    let burn := checkTxPoWScripts_impl C parse b.burnTransaction b.burnWitness zBlock caches.2
    (burn.1, main.2, burn.2)
  else (main.1, main.2, caches.2)

/-! ## What does not depend on the block

A check goes through a fixed list of scripts; the block only decides what each of them sees and how far
it may go. -/

/-- One step of a check. -/
inductive Step where
  /-- The script that runs for input `i` and the coin its proof is for. -/
  | script (i : ℕ) (coin : Coin) (script : Text)
  /-- The check ends here without success. -/
  | reject
  /-- The check ends here with a fault. -/
  | raise (e : Fault)

/-- The list of steps of a check, the same for every block. -/
abbrev Plan := List Step

/-- The step for the token script of a coin. -/
def tokenPlan (i : ℕ) (coin : Coin) : Plan :=
  if coin.tokenID.isEqual Token.TOKENID_MINIMA then []
  else
    match coin.token with
    | none => [.reject]
    | some tok =>
      let tokscript := trim tok.tokenScript
      if tokscript = MiniNumber.ascii "RETURN TRUE" then [] else [.script i coin tokscript]

/-- The steps for input `i`. -/
def inputPlan (zWitness : Witness) (i : ℕ) : Option CoinProof → Plan
  | none => [.raise (.undefined "null CoinProof")]
  | some cproof =>
    match zWitness.getScript cproof.coin.address with
    | none => [.reject]
    | some prfs => .script i cproof.coin prfs.script :: tokenPlan i cproof.coin

/-- The steps for the inputs from `i` on. -/
def inputsPlan (zWitness : Witness) : ℕ → List (Option CoinProof) → Plan
  | _, [] => []
  | i, p :: ps => inputPlan zWitness i p ++ inputsPlan zWitness (i + 1) ps

/-- The steps of a whole transaction. -/
def plan (zTransaction : Transaction) (zWitness : Witness) : Plan :=
  if zTransaction.isEmpty then []
  else if zWitness.coinProofs.length ≠ zTransaction.inputs.length then [.reject]
  else inputsPlan zWitness 0 zWitness.coinProofs

variable (zTransaction : Transaction) (zWitness : Witness)

/-- The check along a plan. -/
def follow (zBlock : TxPoW) : Plan → Result Bool × Bool
  | [] => (.ok true, true)
  | .reject :: _ => (.ok false, true)
  | .raise e :: _ => (.error e, true)
  | .script i coin script :: rest =>
    match runScript C parse zTransaction zWitness zBlock i coin script with
    | .error e => (.error e, true)
    | .ok (false, mono) => (.ok false, mono)
    | .ok (true, mono) =>
      let r := follow zBlock rest
      (r.1, mono && r.2)

/-- A plan in two parts: the second is followed when the first one passes. -/
theorem follow_append (zBlock : TxPoW) (p q : Plan) :
    follow C parse zTransaction zWitness zBlock (p ++ q) =
      match follow C parse zTransaction zWitness zBlock p with
      | (.ok true, mono) =>
        let rest := follow C parse zTransaction zWitness zBlock q
        (rest.1, mono && rest.2)
      | failed => failed := by
  induction p with
  | nil => simp [follow]
  | cons step p ih =>
    cases step with
    | reject => rfl
    | raise e => rfl
    | script i coin script =>
      simp only [List.cons_append, follow, ih]
      rcases runScript C parse zTransaction zWitness zBlock i coin script with e | ⟨success, mono⟩
      · rfl
      · cases success with
        | false => rfl
        | true =>
          rcases follow C parse zTransaction zWitness zBlock p with ⟨verdict | _ | _, mono'⟩
          · rfl
          · rfl
          · simp [Bool.and_assoc]

theorem checkTokenScript_eq (zBlock : TxPoW) (i : ℕ) (coin : Coin) :
    checkTokenScript C parse zTransaction zWitness zBlock i coin =
      follow C parse zTransaction zWitness zBlock (tokenPlan i coin) := by
  unfold checkTokenScript tokenPlan
  by_cases hminima : coin.tokenID.isEqual Token.TOKENID_MINIMA
  · rw [if_pos hminima, if_pos hminima, follow]
  · rw [if_neg hminima, if_neg hminima]
    cases coin.token with
    | none => rfl
    | some tok =>
      simp only
      by_cases htrue : trim tok.tokenScript = MiniNumber.ascii "RETURN TRUE"
      · rw [if_pos htrue, if_pos htrue, follow]
      · rw [if_neg htrue, if_neg htrue, follow]
        rcases runScript C parse zTransaction zWitness zBlock i coin (trim tok.tokenScript) with
          e | ⟨_ | _, mono⟩
        · rfl
        · rfl
        · simp [follow]

theorem checkInput_eq (zBlock : TxPoW) (i : ℕ) (p : Option CoinProof) :
    checkInput C parse zTransaction zWitness zBlock i p =
      follow C parse zTransaction zWitness zBlock (inputPlan zWitness i p) := by
  cases p with
  | none => rfl
  | some cproof =>
    simp only [checkInput, inputPlan]
    cases zWitness.getScript cproof.coin.address with
    | none => rfl
    | some prfs =>
      simp only [follow, checkTokenScript_eq]

/-- **The loop follows the plan.** -/
theorem checkInputs_eq (zBlock : TxPoW) (i : ℕ) (ps : List (Option CoinProof)) :
    checkInputs C parse zTransaction zWitness zBlock i ps =
      follow C parse zTransaction zWitness zBlock (inputsPlan zWitness i ps) := by
  induction ps generalizing i with
  | nil => rfl
  | cons p ps ih => rw [checkInputs, inputsPlan, follow_append, checkInput_eq, ih]

/-- What a check that runs leaves on the transaction. -/
def cacheAt (zBlock : TxPoW) : ScriptCache :=
  let checked := follow C parse zTransaction zWitness zBlock (plan zTransaction zWitness)
  ⟨true, checked.2, decide (checked.1 = .ok true)⟩

/-- **A check returns the kept verdict, or follows the plan.** -/
theorem checkTxPoWScripts_impl_eq (zBlock : TxPoW) (cache : ScriptCache) :
    checkTxPoWScripts_impl C parse zTransaction zWitness zBlock cache =
      if cache.isCheckedMonotonic then (.ok cache.isValid, cache)
      else ((follow C parse zTransaction zWitness zBlock (plan zTransaction zWitness)).1,
        cacheAt C parse zTransaction zWitness zBlock) := by
  unfold checkTxPoWScripts_impl cacheAt plan
  by_cases hcache : cache.isCheckedMonotonic
  · rw [if_pos hcache, if_pos hcache]
  · rw [if_neg hcache, if_neg hcache]
    by_cases hempty : zTransaction.isEmpty
    · rw [if_pos hempty, if_pos hempty]
      rfl
    · rw [if_neg hempty, if_neg hempty]
      by_cases hlength : zWitness.coinProofs.length ≠ zTransaction.inputs.length
      · rw [if_pos hlength, if_pos hlength]
        rfl
      · rw [if_neg hlength, if_neg hlength]
        simp only [checkInputs_eq]

/-! ## What does depend on the block -/

/-- What a script sees at a block. Where the age of the coin cannot be computed it sees none. -/
def globalsAt (zBlock : TxPoW) (coin : Coin) (globals : Contract.Globals) : Contract.Globals :=
  Contract.withBlock zBlock.getBlockNumber zBlock.getTimeMilli
    (Contract.coinAge zBlock.getBlockNumber coin.blockCreated.val).toOption globals

/-- The parsed script for input `i` and the globals that do not change with the block. -/
def Prepared (i : ℕ) (coin : Coin) (script : Text) (contract : Contract.Script)
    (globals : Contract.Globals) : Prop :=
  construct C parse zTransaction zWitness coin script = .ok contract ∧
    ∃ cc, zTransaction.inputs[i]? = some cc ∧
      Contract.inputGlobals zTransaction i coin.blockCreated.val script cc = .ok globals

/-- **A step succeeds at a block when nothing limits it.** -/
def Succeeds (zBlock : TxPoW) : Step → Prop
  | .reject => False
  | .raise _ => False
  | .script i coin script => ∃ contract globals,
    Prepared C parse zTransaction zWitness i coin script contract globals ∧
      contract.result (Contract.getGlobal (globalsAt zBlock coin globals)) = true

/-- **A step fits a block**: the age of its coin can be computed there, and its script takes no more
instructions than the block allows. -/
def FitsBlock (zBlock : TxPoW) : Step → Prop
  | .reject => True
  | .raise _ => True
  | .script i coin script =>
    (∃ age, Contract.coinAge zBlock.getBlockNumber coin.blockCreated.val = .ok age) ∧
      ∀ contract globals, Prepared C parse zTransaction zWitness i coin script contract globals →
        contract.Fits (Contract.getGlobal (globalsAt zBlock coin globals))
          zBlock.getMagic.getMaxKISSOps.getAsInt 0

theorem Prepared.unique {i : ℕ} {coin : Coin} {script : Text} {c c' : Contract.Script}
    {gs gs' : Contract.Globals} (h : Prepared C parse zTransaction zWitness i coin script c gs)
    (h' : Prepared C parse zTransaction zWitness i coin script c' gs') : c = c' ∧ gs = gs' := by
  obtain ⟨hc, cc, hcc, hgs⟩ := h
  obtain ⟨hc', cc', hcc', hgs'⟩ := h'
  rw [hc, Except.ok.injEq] at hc'
  rw [hcc, Option.some.injEq] at hcc'
  subst hcc'
  rw [hgs, Except.ok.injEq] at hgs'
  exact ⟨hc', hgs'⟩

/-- **A run of a script**: it is prepared, the age of its coin is there, and the contract runs. -/
theorem runScript_eq_ok {zBlock : TxPoW} {i : ℕ} {coin : Coin} {script : Text} {r : Bool × Bool} :
    runScript C parse zTransaction zWitness zBlock i coin script = .ok r ↔
      ∃ contract globals age, Prepared C parse zTransaction zWitness i coin script contract globals ∧
        Contract.coinAge zBlock.getBlockNumber coin.blockCreated.val = .ok age ∧
        Contract.run zBlock.getMagic.getMaxKISSOps.getAsInt
          (Contract.withBlock zBlock.getBlockNumber zBlock.getTimeMilli (some age) globals) contract = r := by
  simp only [runScript, Result.bind_eq_ok, Result.pure_eq_ok, Contract.setGlobals]
  constructor
  · rintro ⟨contract, hcontract, globals, hglobals, hrun⟩
    cases hcc : zTransaction.inputs[i]? with
    | none => rw [hcc] at hglobals; exact absurd hglobals (throwException_ne_ok _ _)
    | some cc =>
      rw [hcc] at hglobals
      simp only [Result.bind_eq_ok, Result.pure_eq_ok] at hglobals
      obtain ⟨age, hage, rest, hrest, rfl⟩ := hglobals
      exact ⟨contract, rest, age, ⟨hcontract, cc, hcc, hrest⟩, hage, hrun⟩
  · rintro ⟨contract, globals, age, ⟨hcontract, cc, hcc, hglobals⟩, hage, hrun⟩
    refine ⟨contract, hcontract, _, ?_, hrun⟩
    rw [hcc]
    simp only [hage, hglobals, Result.ok_bind]
    rfl

/-- What a script that is run under `Prepared` sees is what `setGlobals` makes. -/
theorem globalsAt_eq {zBlock : TxPoW} {coin : Coin} {age : MiniNumber}
    (h : Contract.coinAge zBlock.getBlockNumber coin.blockCreated.val = .ok age)
    (globals : Contract.Globals) :
    globalsAt zBlock coin globals =
      Contract.withBlock zBlock.getBlockNumber zBlock.getTimeMilli (some age) globals := by
  rw [globalsAt, h]
  rfl

/-- **A run that fits** returns what the script computes, and a monotonic one computes the same at
every other block, with as many instructions. -/
theorem runScript_of_fits {zBlock : TxPoW} {i : ℕ} {coin : Coin} {script : Text}
    {contract : Contract.Script} {globals : Contract.Globals}
    (hprep : Prepared C parse zTransaction zWitness i coin script contract globals)
    (hfits : FitsBlock C parse zTransaction zWitness zBlock (.script i coin script)) :
    ∃ mono, runScript C parse zTransaction zWitness zBlock i coin script =
        .ok (contract.result (Contract.getGlobal (globalsAt zBlock coin globals)), mono) ∧
      (mono = true → ∀ later : TxPoW,
        contract.result (Contract.getGlobal (globalsAt later coin globals)) =
          contract.result (Contract.getGlobal (globalsAt zBlock coin globals))) := by
  obtain ⟨⟨age, hage⟩, hlimit⟩ := hfits
  have hfit := hlimit contract globals hprep
  rw [globalsAt_eq hage] at hfit ⊢
  refine ⟨(Contract.run zBlock.getMagic.getMaxKISSOps.getAsInt (Contract.withBlock zBlock.getBlockNumber
    zBlock.getTimeMilli (some age) globals) contract).2, ?_, fun hmono later => ?_⟩
  · refine (runScript_eq_ok C parse zTransaction zWitness).mpr ⟨contract, globals, age, hprep, hage, ?_⟩
    simp only [Contract.run, Metered.run_of_fits _ hfit, Option.getD_some]
  · have hasked := Contract.not_changesWithBlock_of_run hmono hfit
    refine (Metered.outcome_congr _ fun q hq => ?_).1.symm
    rw [globalsAt, Contract.getGlobal_withBlock (hasked q hq), Contract.getGlobal_withBlock (hasked q hq)]

/-- **A run that passes** fits, and its script succeeds. -/
theorem fits_of_runScript {zBlock : TxPoW} {i : ℕ} {coin : Coin} {script : Text} {mono : Bool}
    (h : runScript C parse zTransaction zWitness zBlock i coin script = .ok (true, mono)) :
    FitsBlock C parse zTransaction zWitness zBlock (.script i coin script) ∧
      Succeeds C parse zTransaction zWitness zBlock (.script i coin script) := by
  obtain ⟨contract, globals, age, hprep, hage, hrun⟩ := (runScript_eq_ok C parse zTransaction zWitness).mp h
  have hsuccess : (Contract.run zBlock.getMagic.getMaxKISSOps.getAsInt
      (Contract.withBlock zBlock.getBlockNumber zBlock.getTimeMilli (some age) globals) contract).1 = true := by
    rw [hrun]
  -- a run beyond the limit has no result, and that is no success
  have hfit : contract.Fits (Contract.getGlobal (globalsAt zBlock coin globals))
      zBlock.getMagic.getMaxKISSOps.getAsInt 0 := by
    rw [globalsAt_eq hage]
    by_contra hfit
    rw [Contract.run_fst, Metered.run_of_not_fits _ hfit] at hsuccess
    cases hsuccess
  refine ⟨⟨⟨age, hage⟩, fun c gs hc => ?_⟩, contract, globals, hprep, ?_⟩
  · obtain ⟨rfl, rfl⟩ := hprep.unique C parse zTransaction zWitness hc
    exact hfit
  · rw [globalsAt_eq hage] at hfit ⊢
    simpa only [Contract.run, Metered.run_of_fits _ hfit, Option.getD_some] using hsuccess

/-- **A check passes** exactly when every step succeeds and fits. -/
theorem follow_eq_ok_true (zBlock : TxPoW) (p : Plan) :
    (follow C parse zTransaction zWitness zBlock p).1 = .ok true ↔
      (∀ step ∈ p, Succeeds C parse zTransaction zWitness zBlock step) ∧
        ∀ step ∈ p, FitsBlock C parse zTransaction zWitness zBlock step := by
  induction p with
  | nil => simp [follow]
  | cons step p ih =>
    simp only [List.forall_mem_cons]
    cases step with
    | reject => simp [follow, Succeeds]
    | raise e => simp [follow, Succeeds]
    | script i coin script =>
      rw [follow]
      constructor
      · intro h
        rcases hrun : runScript C parse zTransaction zWitness zBlock i coin script with e | ⟨_ | _, mono⟩
        · rw [hrun] at h
          cases h
        · rw [hrun] at h
          cases h
        · rw [hrun] at h
          obtain ⟨hfits, hsucceeds⟩ := fits_of_runScript C parse zTransaction zWitness hrun
          obtain ⟨hrest, hrestFits⟩ := ih.mp h
          exact ⟨⟨hsucceeds, hrest⟩, hfits, hrestFits⟩
      · rintro ⟨⟨⟨contract, globals, hprep, hresult⟩, hrest⟩, hfits, hrestFits⟩
        obtain ⟨mono, hrun, -⟩ := runScript_of_fits C parse zTransaction zWitness hprep hfits
        rw [hrun, hresult]
        exact ih.mpr ⟨hrest, hrestFits⟩

/-- **From one block to another.** What passes monotonically at one block succeeds at every other. -/
theorem succeeds_of_follow {first : TxPoW} (later : TxPoW) {p : Plan}
    (h : (follow C parse zTransaction zWitness first p).1 = .ok true)
    (hmono : (follow C parse zTransaction zWitness first p).2 = true) :
    ∀ step ∈ p, Succeeds C parse zTransaction zWitness later step := by
  induction p with
  | nil => simp
  | cons step p ih =>
    cases step with
    | reject => cases h
    | raise e => cases h
    | script i coin script =>
      rw [follow] at h hmono
      rcases hrun : runScript C parse zTransaction zWitness first i coin script with e | ⟨_ | _, mono⟩
      · rw [hrun] at h
        cases h
      · rw [hrun] at h
        cases h
      · rw [hrun] at h hmono
        obtain ⟨hmonoStep, hmonoRest⟩ := Bool.and_eq_true_iff.mp hmono
        obtain ⟨hfits, contract, globals, hprep, hresult⟩ :=
          fits_of_runScript C parse zTransaction zWitness hrun
        obtain ⟨mono', hrun', hsame⟩ := runScript_of_fits C parse zTransaction zWitness hprep hfits
        rw [hrun, Except.ok.injEq, Prod.mk.injEq] at hrun'
        refine List.forall_mem_cons.mpr ⟨⟨contract, globals, hprep, ?_⟩, ih h hmonoRest⟩
        rw [hsame (hrun'.2 ▸ hmonoStep) later]
        exact hresult

/-- **And back.** A monotonic check that fits its block passes there when some other block lets every
step succeed. -/
theorem follow_of_succeeds {first later : TxPoW} {p : Plan}
    (hmono : (follow C parse zTransaction zWitness first p).2 = true)
    (hfits : ∀ step ∈ p, FitsBlock C parse zTransaction zWitness first step)
    (h : ∀ step ∈ p, Succeeds C parse zTransaction zWitness later step) :
    (follow C parse zTransaction zWitness first p).1 = .ok true := by
  induction p with
  | nil => rfl
  | cons step p ih =>
    obtain ⟨hstep, hrest⟩ := List.forall_mem_cons.mp h
    obtain ⟨hstepFits, hrestFits⟩ := List.forall_mem_cons.mp hfits
    cases step with
    | reject => cases hstep
    | raise e => cases hstep
    | script i coin script =>
      obtain ⟨contract, globals, hprep, hresult⟩ := hstep
      obtain ⟨mono, hrun, hsame⟩ := runScript_of_fits C parse zTransaction zWitness hprep hstepFits
      rw [follow, hrun] at hmono ⊢
      cases hfirst : contract.result (Contract.getGlobal (globalsAt first coin globals)) with
      | false =>
        -- a script that fails here without looking at the block fails at the other block too
        rw [hfirst] at hmono hsame
        rw [hsame hmono later] at hresult
        cases hresult
      | true =>
        rw [hfirst] at hmono
        exact ih (Bool.and_eq_true_iff.mp hmono).2 hrestFits hrest

/-! ## Checking a `TxPoW` again and again -/

/-- The flags on the two transactions after a run of checks, from those of a new object on. -/
def checkAll (b : TxBody) (blocks : List TxPoW) : ScriptCache × ScriptCache :=
  blocks.foldl (fun caches zBlock => (checkTxPoWScripts C parse b zBlock caches).2)
    (ScriptCache.fresh, ScriptCache.fresh)

/-- The flags of a transaction are those of a new one, or were left by a check in one of the blocks. -/
def LeftBy (blocks : List TxPoW) (cache : ScriptCache) : Prop :=
  cache = ScriptCache.fresh ∨ ∃ zBlock ∈ blocks, cache = cacheAt C parse zTransaction zWitness zBlock

variable {zTransaction zWitness} in
theorem LeftBy.impl {blocks : List TxPoW} {cache : ScriptCache}
    (h : LeftBy C parse zTransaction zWitness blocks cache) (zBlock : TxPoW) :
    LeftBy C parse zTransaction zWitness (blocks ++ [zBlock])
      (checkTxPoWScripts_impl C parse zTransaction zWitness zBlock cache).2 := by
  rw [checkTxPoWScripts_impl_eq]
  by_cases hcache : cache.isCheckedMonotonic
  · rw [if_pos hcache]
    rcases h with rfl | ⟨x, hx, rfl⟩
    · exact Or.inl rfl
    · exact Or.inr ⟨x, List.mem_append_left _ hx, rfl⟩
  · rw [if_neg hcache]
    exact Or.inr ⟨zBlock, by simp, rfl⟩

variable {zTransaction zWitness} in
theorem LeftBy.mono {blocks : List TxPoW} {cache : ScriptCache}
    (h : LeftBy C parse zTransaction zWitness blocks cache) (zBlock : TxPoW) :
    LeftBy C parse zTransaction zWitness (blocks ++ [zBlock]) cache := by
  rcases h with rfl | ⟨x, hx, rfl⟩
  · exact Or.inl rfl
  · exact Or.inr ⟨x, List.mem_append_left _ hx, rfl⟩

/-- **Over a run of checks** the flags always come from one of its blocks. -/
theorem leftBy_checkAll (b : TxBody) (blocks : List TxPoW) :
    LeftBy C parse b.transaction b.witness blocks (checkAll C parse b blocks).1 ∧
      LeftBy C parse b.burnTransaction b.burnWitness blocks (checkAll C parse b blocks).2 := by
  induction blocks using List.reverseRecOn with
  | nil => exact ⟨Or.inl rfl, Or.inl rfl⟩
  | append_singleton blocks zBlock ih =>
    obtain ⟨hmain, hburn⟩ := ih
    rw [checkAll, List.foldl_append, List.foldl_cons, List.foldl_nil, ← checkAll, checkTxPoWScripts]
    -- the burn transaction is not reached when the main one fails
    by_cases hpass : (checkTxPoWScripts_impl C parse b.transaction b.witness zBlock
        (checkAll C parse b blocks).1).1 = .ok true
    · rw [if_pos hpass]
      exact ⟨hmain.impl C parse zBlock, hburn.impl C parse zBlock⟩
    · rw [if_neg hpass]
      exact ⟨hmain.impl C parse zBlock, hburn.mono C parse zBlock⟩

theorem checkTxPoWScripts_eq_ok_true (b : TxBody) (zBlock : TxPoW) (caches : ScriptCache × ScriptCache) :
    (checkTxPoWScripts C parse b zBlock caches).1 = .ok true ↔
      (checkTxPoWScripts_impl C parse b.transaction b.witness zBlock caches.1).1 = .ok true ∧
        (checkTxPoWScripts_impl C parse b.burnTransaction b.burnWitness zBlock caches.2).1 = .ok true := by
  rw [checkTxPoWScripts]
  by_cases hpass : (checkTxPoWScripts_impl C parse b.transaction b.witness zBlock caches.1).1 = .ok true
  · rw [if_pos hpass]
    simp [hpass]
  · rw [if_neg hpass]
    simp [hpass]

/-- A kept verdict is the one of the block that left it. -/
theorem impl_cacheAt {zBlock : TxPoW}
    (h : (cacheAt C parse zTransaction zWitness zBlock).isCheckedMonotonic = true) (later : TxPoW) :
    (checkTxPoWScripts_impl C parse zTransaction zWitness later
        (cacheAt C parse zTransaction zWitness zBlock)).1 = .ok true ↔
      (follow C parse zTransaction zWitness zBlock (plan zTransaction zWitness)).1 = .ok true := by
  rw [checkTxPoWScripts_impl_eq, if_pos h, cacheAt, Except.ok.injEq, decide_eq_true_eq]

/-- A check of a transaction that was not checked follows its plan. -/
theorem impl_fresh (zBlock : TxPoW) :
    (checkTxPoWScripts_impl C parse zTransaction zWitness zBlock ScriptCache.fresh).1 =
      (follow C parse zTransaction zWitness zBlock (plan zTransaction zWitness)).1 := by
  rw [checkTxPoWScripts_impl_eq]
  rfl

/-- **The two transactions succeed at a block** when nothing limits their scripts. -/
def AllSucceed (b : TxBody) (zBlock : TxPoW) : Prop :=
  (∀ step ∈ plan b.transaction b.witness,
      Succeeds C parse b.transaction b.witness zBlock step) ∧
    ∀ step ∈ plan b.burnTransaction b.burnWitness,
      Succeeds C parse b.burnTransaction b.burnWitness zBlock step

/-- **The two transactions fit** a block each: the ages of their coins can be computed there and no
script takes more instructions than the block allows. -/
def AllFit (b : TxBody) (zBlock zBurnBlock : TxPoW) : Prop :=
  (∀ step ∈ plan b.transaction b.witness,
      FitsBlock C parse b.transaction b.witness zBlock step) ∧
    ∀ step ∈ plan b.burnTransaction b.burnWitness,
      FitsBlock C parse b.burnTransaction b.burnWitness zBurnBlock step

theorem checkTxPoWScripts_fresh (b : TxBody) (zBlock : TxPoW) :
    (checkTxPoWScripts C parse b zBlock (ScriptCache.fresh, ScriptCache.fresh)).1 = .ok true ↔
      AllSucceed C parse b zBlock ∧ AllFit C parse b zBlock zBlock := by
  rw [checkTxPoWScripts_eq_ok_true, impl_fresh, impl_fresh, follow_eq_ok_true, follow_eq_ok_true,
    AllSucceed, AllFit]
  tauto

end Scripts

end TxPoWChecker

/-- `TxPoW::isMonotonic`, of the flags on the two transactions. -/
def TxBody.isMonotonic (b : TxBody) (caches : ScriptCache × ScriptCache) : Bool :=
  caches.1.isCheckedMonotonic && (b.burnTransaction.isEmpty || caches.2.isCheckedMonotonic)

namespace TxPoWChecker

variable (C : Crypto) (parse : Contract.Parser)

/-- **The kept verdict is right at a block**: the check with the flags passes exactly when a check that
runs all scripts does. A fault counts as not passing: it rejects the block like `FALSE`. -/
def KeptRight (b : TxBody) (caches : ScriptCache × ScriptCache) (later : TxPoW) : Prop :=
  (checkTxPoWScripts C parse b later caches).1 = .ok true ↔
    (checkTxPoWScripts C parse b later (ScriptCache.fresh, ScriptCache.fresh)).1 = .ok true

theorem plan_of_isEmpty {zTransaction : Transaction} (zWitness : Witness)
    (h : zTransaction.isEmpty = true) : plan zTransaction zWitness = [] := by
  rw [plan, if_pos h]

/-- A marked transaction was left by a check in one of the blocks. -/
theorem LeftBy.exists_of_isCheckedMonotonic {zTransaction : Transaction} {zWitness : Witness}
    {blocks : List TxPoW} {cache : ScriptCache} (h : LeftBy C parse zTransaction zWitness blocks cache)
    (hcache : cache.isCheckedMonotonic = true) :
    ∃ zBlock ∈ blocks, cache = cacheAt C parse zTransaction zWitness zBlock := by
  rcases h with rfl | h
  · cases hcache
  · exact h

/-- **The kept verdict is right at a later block exactly when** some script fails there by itself, or
the scripts fit the blocks they were checked in exactly if they fit the later one. -/
theorem checkTxPoWScripts_kept_iff (b : TxBody) (blocks : List TxPoW)
    (hmono : b.isMonotonic (checkAll C parse b blocks) = true) :
    ∃ first ∈ blocks, ∃ firstBurn ∈ blocks,
      (checkAll C parse b blocks).1 = cacheAt C parse b.transaction b.witness first ∧
      (b.burnTransaction.isEmpty = false →
        (checkAll C parse b blocks).2 = cacheAt C parse b.burnTransaction b.burnWitness firstBurn) ∧
      ∀ later : TxPoW, KeptRight C parse b (checkAll C parse b blocks) later ↔
        ¬ AllSucceed C parse b later ∨
          (AllFit C parse b first firstBurn ↔ AllFit C parse b later later) := by
  obtain ⟨hleft, hleftBurn⟩ := leftBy_checkAll C parse b blocks
  obtain ⟨hmain, hburn⟩ := Bool.and_eq_true_iff.mp hmono
  obtain ⟨first, hfirst, hcache⟩ := hleft.exists_of_isCheckedMonotonic C parse hmain
  rw [hcache] at hmain
  -- the burn transaction: where its verdict comes from, and what it is
  have hburnCase : ∃ firstBurn ∈ blocks,
      (b.burnTransaction.isEmpty = false →
        (checkAll C parse b blocks).2 = cacheAt C parse b.burnTransaction b.burnWitness firstBurn) ∧
      (∀ later : TxPoW, (checkTxPoWScripts_impl C parse b.burnTransaction b.burnWitness later
          (checkAll C parse b blocks).2).1 = .ok true ↔
        (follow C parse b.burnTransaction b.burnWitness firstBurn
          (plan b.burnTransaction b.burnWitness)).1 = .ok true) ∧
      (follow C parse b.burnTransaction b.burnWitness firstBurn
        (plan b.burnTransaction b.burnWitness)).2 = true := by
    by_cases hempty : b.burnTransaction.isEmpty = true
    · have hplan := plan_of_isEmpty b.burnWitness hempty
      refine ⟨first, hfirst, fun h => absurd hempty (by simp [h]), fun later => ?_, by rw [hplan]; rfl⟩
      rw [checkTxPoWScripts_impl_eq, hplan]
      rcases hleftBurn with hfresh | ⟨x, -, hx⟩
      · rw [hfresh]
        simp [ScriptCache.fresh, ScriptCache.isCheckedMonotonic, follow]
      · rw [hx, cacheAt, hplan]
        simp [ScriptCache.isCheckedMonotonic, follow]
    · rw [Bool.not_eq_true] at hempty
      rw [hempty, Bool.false_or] at hburn
      obtain ⟨firstBurn, hfirstBurn, hcacheBurn⟩ :=
        hleftBurn.exists_of_isCheckedMonotonic C parse hburn
      rw [hcacheBurn] at hburn
      refine ⟨firstBurn, hfirstBurn, fun _ => hcacheBurn, fun later => ?_, hburn⟩
      rw [hcacheBurn]
      exact impl_cacheAt C parse _ _ hburn later
  obtain ⟨firstBurn, hfirstBurn, hcacheBurn, hverdictBurn, hmonoBurn⟩ := hburnCase
  refine ⟨first, hfirst, firstBurn, hfirstBurn, hcache, hcacheBurn, fun later => ?_⟩
  rw [KeptRight, checkTxPoWScripts_fresh, checkTxPoWScripts_eq_ok_true, hverdictBurn later, hcache,
    impl_cacheAt C parse _ _ hmain later]
  have hmonoMain : (follow C parse b.transaction b.witness first
    (plan b.transaction b.witness)).2 = true := hmain
  by_cases hsucceed : AllSucceed C parse b later
  · -- every script succeeds at the later block: the kept verdict only depends on the limits
    have hpass : ((follow C parse b.transaction b.witness first (plan b.transaction b.witness)).1 =
          .ok true ∧
        (follow C parse b.burnTransaction b.burnWitness firstBurn
          (plan b.burnTransaction b.burnWitness)).1 = .ok true) ↔ AllFit C parse b first firstBurn := by
      constructor
      · rintro ⟨h, hb⟩
        exact ⟨((follow_eq_ok_true C parse _ _ _ _).mp h).2, ((follow_eq_ok_true C parse _ _ _ _).mp hb).2⟩
      · rintro ⟨hfit, hfitBurn⟩
        exact ⟨follow_of_succeeds C parse _ _ hmonoMain hfit hsucceed.1,
          follow_of_succeeds C parse _ _ hmonoBurn hfitBurn hsucceed.2⟩
    rw [hpass]
    simp [hsucceed]
  · -- some script fails at the later block, so none of the kept verdicts can be good
    have hfail : ¬ ((follow C parse b.transaction b.witness first (plan b.transaction b.witness)).1 =
          .ok true ∧
        (follow C parse b.burnTransaction b.burnWitness firstBurn
          (plan b.burnTransaction b.burnWitness)).1 = .ok true) := by
      rintro ⟨h, hb⟩
      exact hsucceed ⟨succeeds_of_follow C parse _ _ later h hmonoMain,
        succeeds_of_follow C parse _ _ later hb hmonoBurn⟩
    simp [hsucceed, hfail]

/-! ### A script that is too long for a later block -/

/-- A loop of 146 turns. -/
def longScript : Text :=
  MiniNumber.ascii "LET a = 0 WHILE a LT 146 DO LET a = a + 1 ENDWHILE RETURN TRUE"

/-- Parts of the node with which scripts can add numbers. -/
def addingLibrary : Kissvm.Library :=
  { Kissvm.Contract.idleLibrary with
    applyOperator := fun zOperator lval rval =>
      match zOperator, lval, rval with
      | .add, .number x, some (.number y) => Kissvm.ofResult (Kissvm.Value.number <$> x.add y)
      | _, _, _ => .error (.execution "UNKNOWN operator") }

/-- The tokenizer, the parser and the interpreter, for more steps than the loop takes. -/
def longScriptParser : Contract.Parser := Kissvm.Contract.meteredParser (fun _ _ _ _ => addingLibrary) 4000

/-- The coin behind `longScript`, and a coin that it is spent into. -/
def longScriptCoin : Coin where
  coinID := ⟨[2]⟩
  address := ⟨[3]⟩
  amount := TxPoW.oneStored
  tokenID := Token.TOKENID_MINIMA
  storeState := true
  state := []
  mmrEntryNumber := .zero
  spent := 0
  blockCreated := TxPoW.oneStored
  token := none

/-- A body that spends the coin and has no burn transaction. -/
def longScriptBody : TxBody where
  prng := ⟨[0]⟩
  txnDifficulty := ⟨[0]⟩
  transaction := ⟨[longScriptCoin], [longScriptCoin], [], ⟨[0]⟩, by decide, by decide⟩
  witness := ⟨[], [some ⟨longScriptCoin, ⟨.zero, []⟩⟩], [⟨longScript, ⟨.zero, []⟩, ⟨[3]⟩⟩]⟩
  burnTransaction := ⟨[], [], [], ⟨[0]⟩, Transaction.noCoins_length, Transaction.noCoins_length⟩
  burnWitness := Witness.empty
  txPowIDList := []

/-- A block that allows a number of instructions. -/
def blockAllowing (number ops : ℕ) (hnumber : number < 10 ^ 64 := by decide)
    (hops : ops < 10 ^ 64 := by decide) : TxPoW :=
  let t := TxPoW.sample [1] number 0 (fun _ => MiniData.zeroTxPowID) hnumber
  { t with header := { t.header with magic := { t.header.magic with
    currentMaxKISSVMOps := ⟨.ofInt ops, MiniNumber.canonical_ofNat hops⟩ } } }

/-- Checked in a block that allows 1100 instructions, the verdict is kept: it is good, and so it is in a
block that allows 1024, where it is not when it is checked there. -/
theorem longScript_runs :
    longScriptBody.isMonotonic
        (checkAll .plain longScriptParser longScriptBody [blockAllowing 5 1100]) = true ∧
      (checkTxPoWScripts .plain longScriptParser longScriptBody (blockAllowing 6 1024)
        (checkAll .plain longScriptParser longScriptBody [blockAllowing 5 1100])).1 = .ok true ∧
      (checkTxPoWScripts .plain longScriptParser longScriptBody (blockAllowing 6 1024)
        (ScriptCache.fresh, ScriptCache.fresh)).1 = .ok false := by
  decide +kernel

theorem checkTxPoWScripts_kept_iff_sample :
    ∃ first ∈ [blockAllowing 5 1100], ∃ firstBurn ∈ [blockAllowing 5 1100],
      (checkAll .plain longScriptParser longScriptBody [blockAllowing 5 1100]).1 =
        cacheAt .plain longScriptParser longScriptBody.transaction longScriptBody.witness first ∧
      (longScriptBody.burnTransaction.isEmpty = false →
        (checkAll .plain longScriptParser longScriptBody [blockAllowing 5 1100]).2 =
          cacheAt .plain longScriptParser longScriptBody.burnTransaction longScriptBody.burnWitness
            firstBurn) ∧
      ∀ later : TxPoW, KeptRight .plain longScriptParser longScriptBody
          (checkAll .plain longScriptParser longScriptBody [blockAllowing 5 1100]) later ↔
        ¬ AllSucceed .plain longScriptParser longScriptBody later ∨
          (AllFit .plain longScriptParser longScriptBody first firstBurn ↔
            AllFit .plain longScriptParser longScriptBody later later) :=
  checkTxPoWScripts_kept_iff .plain longScriptParser longScriptBody [blockAllowing 5 1100]
    longScript_runs.1

/-- Checked in a block that allows 1100 instructions the script is good, and its verdict is kept; a
later block allows 1024, and all scripts together would fail there. -/
theorem checkTxPoWScripts_not_kept :
    longScriptBody.isMonotonic
        (checkAll .plain longScriptParser longScriptBody [blockAllowing 5 1100]) = true ∧
      (checkTxPoWScripts .plain longScriptParser longScriptBody (blockAllowing 6 1024)
        (checkAll .plain longScriptParser longScriptBody [blockAllowing 5 1100])).1 = .ok true ∧
      (checkTxPoWScripts .plain longScriptParser longScriptBody (blockAllowing 6 1024)
        (ScriptCache.fresh, ScriptCache.fresh)).1 = .ok false ∧
      ¬ KeptRight .plain longScriptParser longScriptBody
        (checkAll .plain longScriptParser longScriptBody [blockAllowing 5 1100]) (blockAllowing 6 1024) := by
  obtain ⟨hmonotonic, hkept, hfull⟩ := longScript_runs
  refine ⟨hmonotonic, hkept, hfull, fun h => ?_⟩
  rw [KeptRight, hkept, hfull] at h
  cases h.mp rfl

end TxPoWChecker

end Minima
