import Minima.Kissvm.Contract
import Minima.Kissvm.Termination

/-! # The run of a script as a computation that counts and asks

A check of scripts looks at a run from the outside: what it counts, which globals it reads, and whether it
is a success in the end. Here the interpreter is brought into this form. The machine runs with the largest
limit; each step spends the instructions that it executes, and a step that reads a global asks for it.

* **`Machine.metered`** — the run from a state on.
* **`Machine.metered_spec`** — it has the result and the cost of the run.
* **`Contract.meteredParser`** — a parser for the checks: the tokenizer, the parser and the interpreter. -/

namespace Minima.Kissvm

/-- The value of a global. -/
def Value.ofGlobal : Minima.Contract.Value → Value
  | .number x => number x
  | .hex d => hex d
  | .string s => script s

/-- The same surroundings with other globals. -/
def Setting.withGlobals (S : Setting) (getGlobal : Text → Option Minima.Contract.Value) : Setting :=
  { S with globals := fun zType => (getGlobal zType).map Value.ofGlobal }

namespace Machine

/-- The global that the next step reads, behind the instruction that it counts. -/
def readsGlobal (m : Machine) : Option Text :=
  match m.control with
  | .eval (.global zType) _ => some zType
  -- the condition of a loop is evaluated again behind its body, unless a `RETURN` was executed in it
  | .blockDone (.whileBody (.global zType) _ _) => if m.successSet then none else some zType
  | _ => none

/-- `isSuccess` of a contract when its run is over. -/
def isSuccess (m : Machine) : Bool :=
  match m.control with
  | .finished => m.success
  | _ => false

/-- **The run from a state on**, for a number of steps: what it executes is spent, and what it reads is
asked for. A run that is not over then is no success. -/
def metered (S : Setting) : ℕ → Machine → Minima.Contract.Script
  | 0, m => .done m.isSuccess
  | steps + 1, m =>
    if m.isEnded then .done m.isSuccess
    else
      let next := m.step (S.withGlobals fun _ => none)
      m.readsGlobal.elim (Metered.spendOnes (next.executed - m.executed) (metered S steps next)) fun zType =>
        Metered.spendOnes 1 (.ask zType fun v => metered S steps (m.step (S.withGlobals fun _ => v)))

/-! ## Steps and globals -/

variable {S : Setting} {m : Machine}

/-- **A step reads no other global**, and what it does depends on nothing else that settings differ in. -/
theorem step_withGlobals (S : Setting) (m : Machine) {f g : Text → Option Minima.Contract.Value}
    (h : ∀ zType, m.readsGlobal = some zType → f zType = g zType) :
    m.step (S.withGlobals f) = m.step (S.withGlobals g) := by
  obtain ⟨numInstructions, executed, stackDepth, vars, success, successSet, control⟩ := m
  cases control with
  | eval e k =>
    -- only a global looks at the globals; every other step is the same by definition
    cases e with
    | global zType =>
      have hvalue : (S.withGlobals f).globals zType = (S.withGlobals g).globals zType := by
        simp only [Setting.withGlobals, h zType rfl]
      simp only [step, incrementInstructions, dispatch, hvalue]
      rfl
    | constant | «variable» | boolean | operator | function => rfl
  | value v k => cases k <;> rfl
  | blockDone k =>
    cases k with
    | whileBody e stats k =>
      cases e with
      | global zType =>
        cases successSet with
        | true => rfl
        | false =>
          have hvalue : (S.withGlobals f).globals zType = (S.withGlobals g).globals zType := by
            simp only [Setting.withGlobals, h zType rfl]
          simp only [step, leaveBlock, incrementInstructions, dispatch, hvalue]
          rfl
      | constant | «variable» | boolean | operator | function => rfl
    | finish | branchEnd | scriptEnd | functionEnd => rfl
  | statementDone k =>
    cases k
    rfl
  | routine | block | statements | throwing | finished | crashed => rfl

/-! ## What a step executes -/

/-- An instruction that is counted is executed or refused. -/
theorem executed_le_incrementInstructions (S : Setting) (z : ℕ) (m : Machine) {x : Expects} (k : Frames x)
    {next : Machine → Machine} (h : ∀ m₁, m₁.executed = m.executed + z → m₁.executed ≤ (next m₁).executed) :
    m.executed ≤ (m.incrementInstructions S z k next).executed := by
  unfold incrementInstructions
  dsimp only
  split_ifs
  · exact le_rfl
  · have hnext := h { m with numInstructions := addInt m.numInstructions z, executed := m.executed + z } rfl
    exact (Nat.le_add_right _ _).trans hnext

theorem executed_le_dispatch (S : Setting) (e : Expression) (k : Frames .value) (m : Machine) :
    m.executed ≤ (dispatch S e k m).executed := by
  unfold dispatch
  cases e with
  | constant | boolean | operator => exact le_rfl
  | global zType =>
    dsimp only
    split <;> exact le_rfl
  | «variable» zName =>
    dsimp only
    split <;> exact le_rfl
  | function f params =>
    dsimp only
    unfold callFunction incrementStackDepth
    split_ifs
    · exact le_rfl
    · dsimp only
      split_ifs
      · exact le_rfl
      · exact executed_le_incrementInstructions S _ { m with stackDepth := m.stackDepth + 1 } k fun _ _ => le_rfl

/-- **A step takes nothing back** of what was executed. -/
theorem executed_le_step (S : Setting) (m : Machine) : m.executed ≤ (m.step S).executed := by
  unfold step
  cases m.control with
  | eval e k => exact executed_le_incrementInstructions S 1 m k fun m₁ _ => executed_le_dispatch S e k m₁
  -- a value that is received may complete an operator, which counts as an instruction
  | value v k =>
    dsimp only
    rcases receive_cases S v k m with hquiet | ⟨zOperator, k', -, heq⟩
    · exact hquiet.executed.ge
    · rw [heq]
      exact executed_le_incrementInstructions S 1 m k' fun m₁ _ =>
        (quiet_returnValue m₁ (S.library.applyOperator zOperator v none) k').executed.ge
  | routine params r k =>
    cases r with
    | answer result =>
      dsimp only [perform]
      split
      · exact le_rfl
      · exact (quiet_fail m _ k).executed.ge
    | ask | attempt | execute => exact (quiet_perform _ k m (by simp)).executed.ge
  | block stats k =>
    dsimp only
    unfold incrementStackDepth
    split_ifs <;> exact le_rfl
  | statements rest k =>
    dsimp only
    unfold nextStatement
    cases rest with
    | nil => exact le_rfl
    | cons s rest =>
      dsimp only
      split_ifs
      · exact le_rfl
      · exact executed_le_incrementInstructions S 1 m k fun m₁ _ => (stays_execute s _ m₁).executed.ge
  | blockDone k =>
    dsimp only
    unfold leaveBlock
    cases k with
    | whileBody e stats k =>
      dsimp only
      split_ifs
      · exact le_rfl
      · exact executed_le_incrementInstructions S 1 m k fun m₁ _ => executed_le_dispatch S e _ m₁
    | finish | branchEnd | scriptEnd | functionEnd => exact le_rfl
  | statementDone k =>
    cases k
    exact le_rfl
  | throwing e k => exact (quiet_unwind e k m).executed.ge
  | finished | crashed => exact le_rfl

/-- A step that reads a global executes one instruction. -/
theorem executed_step_of_reads (hmax : S.maxInstructions = 2 ^ 31 - 1) {zType : Text}
    (h : m.readsGlobal = some zType) : (m.step S).executed = m.executed + 1 := by
  obtain ⟨numInstructions, executed, stackDepth, vars, success, successSet, control⟩ := m
  have hdispatch : ∀ (m₁ : Machine) (k : Frames .value), (dispatch S (.global zType) k m₁).executed = m₁.executed := by
    intro m₁ k
    unfold dispatch
    dsimp only
    split <;> rfl
  unfold readsGlobal at h
  dsimp only at h
  split at h
  · obtain rfl := Option.some.inj h
    simp only [step, Contract.incrementInstructions_of_max hmax, hdispatch]
  · split_ifs at h with hset
    obtain rfl := Option.some.inj h
    simp only [step, leaveBlock, hset, Contract.incrementInstructions_of_max hmax, hdispatch, Bool.false_eq_true,
      if_false]
  · cases h

/-! ## The whole run -/

/-- **The metered run is the run:** under any globals it is a success if the run is over and a success after
so many steps, and it costs what these execute. -/
theorem metered_spec (hmax : S.maxInstructions = 2 ^ 31 - 1)
    (getGlobal : Text → Option Minima.Contract.Value) (steps : ℕ) (m : Machine) :
    (m.metered S steps).result getGlobal = ((step (S.withGlobals getGlobal))^[steps] m).isSuccess ∧
      m.executed + (m.metered S steps).cost getGlobal =
        ((step (S.withGlobals getGlobal))^[steps] m).executed := by
  induction steps generalizing m with
  | zero => exact ⟨rfl, rfl⟩
  | succ steps ih =>
    rw [metered]
    split_ifs with hend
    · have hstays : m.step (S.withGlobals getGlobal) = m :=
        step_of_isEnded _ (by simp [hend])
      rw [Function.iterate_fixed hstays]
      exact ⟨rfl, rfl⟩
    · rw [Function.iterate_succ_apply]
      cases hreads : m.readsGlobal with
      -- the answer to the question is what the step would read, so both go on from one state
      | some zType =>
        have hstep : m.step (S.withGlobals fun _ => getGlobal zType) = m.step (S.withGlobals getGlobal) := by
          refine step_withGlobals S m fun zType' h => ?_
          rw [Option.some.inj (hreads.symm.trans h)]
        have hone : (m.step (S.withGlobals getGlobal)).executed = m.executed + 1 :=
          executed_step_of_reads hmax hreads
        obtain ⟨hresult, hcost⟩ := ih (m.step (S.withGlobals getGlobal))
        simp only [Option.elim_some, Metered.result_spendOnes, Metered.cost_spendOnes, Metered.result, Metered.cost,
          hstep]
        exact ⟨hresult, by omega⟩
      | none =>
        have hstep : m.step (S.withGlobals fun _ => none) = m.step (S.withGlobals getGlobal) := by
          refine step_withGlobals S m fun zType' h => ?_
          rw [hreads] at h
          cases h
        have hle := executed_le_step (S.withGlobals getGlobal) m
        obtain ⟨hresult, hcost⟩ := ih (m.step (S.withGlobals getGlobal))
        simp only [Option.elim_none, Metered.result_spendOnes, Metered.cost_spendOnes, hstep]
        exact ⟨hresult, by omega⟩

end Machine

namespace Contract

/-- **The tokenizer, the parser and the interpreter** as what a check of scripts needs, with the parts of the
node that the surroundings of a script determine. -/
def meteredParser (library : List MiniData → Witness → Transaction → List StateVariable → Library) (steps : ℕ) :
    Minima.Contract.Parser := fun script keys witness transaction prevState =>
  (start script).metered ⟨library keys witness transaction prevState, 2 ^ 31 - 1, fun _ => none, witness⟩ steps

/-- **A contract under a limit** is a success exactly if the script, over after so many steps, is one
without a limit, and executes no more than the limit. -/
theorem run_meteredParser (library : List MiniData → Witness → Transaction → List StateVariable → Library)
    (steps : ℕ) (zMax : ℤ) (globals : Minima.Contract.Globals) (script : Text) (keys : List MiniData)
    (witness : Witness) (transaction : Transaction) (prevState : List StateVariable) {m : Machine}
    (hm : runFor (Setting.withGlobals ⟨library keys witness transaction prevState, 2 ^ 31 - 1, fun _ => none, witness⟩
      (Minima.Contract.getGlobal globals)) script steps = m) :
    (Minima.Contract.run zMax globals
        (meteredParser library steps script keys witness transaction prevState)).1 = true ↔
      m.isSuccess = true ∧ (m.executed = 0 ∨ (m.executed : ℤ) ≤ zMax) := by
  let S : Setting := ⟨library keys witness transaction prevState, 2 ^ 31 - 1, fun _ => none, witness⟩
  have hspec : ((start script).metered S steps).result (Minima.Contract.getGlobal globals) = m.isSuccess ∧
      0 + ((start script).metered S steps).cost (Minima.Contract.getGlobal globals) = m.executed :=
    hm ▸ Machine.metered_spec rfl (Minima.Contract.getGlobal globals) steps (start script)
  obtain ⟨hresult, hcost⟩ := hspec
  rw [Minima.Contract.run_fst]
  change (((start script).metered S steps).run _ zMax 0).1.getD false = true ↔ _
  by_cases hfits : ((start script).metered S steps).Fits (Minima.Contract.getGlobal globals) zMax 0
  · rw [Metered.run_of_fits _ hfits, hresult, ← hcost]
    unfold Metered.Fits at hfits
    simp only [Option.getD_some, Nat.zero_add] at hfits ⊢
    simp [hfits]
  · rw [Metered.run_of_not_fits _ hfits, ← hcost]
    unfold Metered.Fits at hfits
    simp only [Nat.zero_add] at hfits ⊢
    simp [hfits]

end Contract

end Minima.Kissvm
