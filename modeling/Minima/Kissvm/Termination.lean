import Minima.Kissvm.Machine
import Minima.Lib.Counting

/-! # Every run ends within its limit

The measure of a run is what is left of the instruction limit and, below it, the work that the
continuation can still do without counting an instruction (`rank`). A `WHILE` goes back to its check
and a block to its next statement only through `incrementInstructions`, and whatever a script makes and
runs, it runs behind one.

The counter is an `int`. It goes a little above the limit: `CHECKSIG` counts 31 instructions at once,
and every `PROOF` around a call catches the exception of the limit and evaluates its parameter once
more. The calls of `PROOF` that are under way (`tries`) fit into the stack depth.

* **`Machine.step_advances`** — a step counts or lowers the rank.
* **`Contract.endsWithin`** — a run ends, and executes no more instructions than its limit says.
* **`Contract.not_endsWithin`** — with the largest `int` as its limit a loop has no end. -/

namespace Minima.Kissvm

/-! ## What is under way -/

namespace Frames

/-- The work of the calls that are under way, up to the next instruction that is counted. -/
def rank : {x : Expects} → Frames x → ℕ
  | _, finish => 1
  | _, statements _ k => k.rank + 2
  | _, letVariable _ k => k.rank + 1
  | _, letPosition _ rest _ k => k.rank + rest.length + 2
  | _, assert k => k.rank + 1
  | _, returns k => k.rank + 1
  | _, exec k => k.rank + 4
  | _, mast k => k.rank + 4
  | _, branch _ rest k => k.rank + rest.length + 4
  | _, whileCheck _ _ k => k.rank + 4
  | _, branchEnd k => k.rank + 1
  | _, whileBody _ _ k => k.rank + 1
  | _, scriptEnd k => k.rank + 1
  | _, @functionEnd n _ _ k => k.rank + 5 * n + 2
  | _, booleanRight _ _ k => k.rank + 2
  | _, booleanEnd _ _ k => k.rank + 1
  | _, operatorRight _ _ k => k.rank + 2
  | _, operatorEnd _ _ k => k.rank + 1
  | _, @parameter _ n _ _ k => k.rank + 5 * n + 2
  | _, @attempt n _ _ _ _ k => k.rank + 5 * n + 3

/-- The calls of `PROOF` that may yet catch an exception. -/
def tries : {x : Expects} → Frames x → ℕ
  | _, finish => 0
  | _, statements _ k => k.tries
  | _, letVariable _ k => k.tries
  | _, letPosition _ _ _ k => k.tries
  | _, assert k => k.tries
  | _, returns k => k.tries
  | _, exec k => k.tries
  | _, mast k => k.tries
  | _, branch _ _ k => k.tries
  | _, whileCheck _ _ k => k.tries
  | _, branchEnd k => k.tries
  | _, whileBody _ _ k => k.tries
  | _, scriptEnd k => k.tries
  | _, functionEnd _ _ k => k.tries
  | _, booleanRight _ _ k => k.tries
  | _, booleanEnd _ _ k => k.tries
  | _, operatorRight _ _ k => k.tries
  | _, operatorEnd _ _ k => k.tries
  | _, @parameter tries _ _ _ k => k.tries + tries.toNat
  | _, attempt _ _ _ _ k => k.tries + 1

/-- The blocks and functions under way. -/
def depth : {x : Expects} → Frames x → ℕ
  | _, finish => 0
  | _, statements _ k => k.depth + 1
  | _, letVariable _ k => k.depth
  | _, letPosition _ _ _ k => k.depth
  | _, assert k => k.depth
  | _, returns k => k.depth
  | _, exec k => k.depth
  | _, mast k => k.depth
  | _, branch _ _ k => k.depth
  | _, whileCheck _ _ k => k.depth
  | _, branchEnd k => k.depth
  | _, whileBody _ _ k => k.depth
  | _, scriptEnd k => k.depth
  | _, functionEnd _ _ k => k.depth + 1
  | _, booleanRight _ _ k => k.depth
  | _, booleanEnd _ _ k => k.depth
  | _, operatorRight _ _ k => k.depth
  | _, operatorEnd _ _ k => k.depth
  | _, parameter _ _ k => k.depth + 1
  | _, attempt _ _ _ _ k => k.depth + 1

/-- The call of a value or a statement is inside a block, which catches nothing. -/
def margin : Expects → ℕ
  | .value => 1
  | .statement => 1
  | .block => 0

/-- **Every call that may catch an exception has its place in the stack depth**, next to the block of
the script. -/
theorem tries_add_margin_le_depth {x : Expects} (k : Frames x) : k.tries + margin x ≤ k.depth := by
  induction k with
  | finish => exact le_rfl
  | statements | functionEnd | attempt => simp only [tries, depth, margin] at *; omega
  | parameter =>
    rename_i flag _ _ _ _ _
    have hflag := flag.toNat_le
    simp only [tries, depth, margin] at *
    omega
  | letVariable | letPosition | assert | returns | exec | mast | branch | whileCheck | branchEnd
  | whileBody | scriptEnd | booleanRight | booleanEnd | operatorRight | operatorEnd =>
    simp only [tries, depth, margin] at *
    omega

end Frames

namespace Control

/-- The work up to the next instruction that is counted. -/
def rank : Control → ℕ
  | eval _ k => k.rank + 1
  | value _ k => k.rank + 1
  | @routine _ n _ _ k => k.rank + 5 * n + 2
  | block _ k => k.rank + 3
  | statements _ k => k.rank + 2
  | blockDone k => k.rank + 1
  | statementDone k => k.rank + 1
  | throwing _ k => k.rank
  | finished => 0
  | crashed _ => 0

/-- How often the check of the limit can still fail. -/
def refusals : Control → ℕ
  | eval _ k => k.tries + 1
  | value _ k => k.tries + 1
  | @routine tries _ _ _ k => k.tries + tries.toNat + 1
  | block _ k => k.tries + 1
  | statements _ k => k.tries + 1
  | blockDone k => k.tries + 1
  | statementDone k => k.tries + 1
  | throwing _ k => k.tries
  | finished => 0
  | crashed _ => 0

/-- The blocks and functions under way. -/
def depth : Control → ℕ
  | eval _ k => k.depth
  | value _ k => k.depth
  | routine _ _ k => k.depth + 1
  | block _ k => k.depth
  | statements _ k => k.depth + 1
  | blockDone k => k.depth
  | statementDone k => k.depth
  | throwing _ k => k.depth
  | finished => 0
  | crashed _ => 0

end Control

namespace Machine

/-! ## Steps that count nothing -/

/-- A step within the numbers of a machine: nothing is counted, and no block or function is entered
beyond a depth. -/
structure Stays (m m' : Machine) (depth : ℕ) : Prop where
  numInstructions : m'.numInstructions = m.numInstructions
  executed : m'.executed = m.executed
  stackDepth : m'.stackDepth = m.stackDepth
  depth_le : m'.control.depth ≤ depth

/-- Such a step with the work and the refusals that it leaves. -/
structure Quiet (m m' : Machine) (rank refusals depth : ℕ) : Prop extends Stays m m' depth where
  rank_le : m'.control.rank ≤ rank
  refusals_le : m'.control.refusals ≤ refusals

variable {S : Setting} {m m' : Machine} {x : Expects}

theorem Quiet.mono {rank rank' refusals refusals' depth depth' : ℕ} (h : Quiet m m' rank refusals depth)
    (hrank : rank ≤ rank') (href : refusals ≤ refusals') (hdepth : depth ≤ depth') :
    Quiet m m' rank' refusals' depth' where
  numInstructions := h.numInstructions
  executed := h.executed
  stackDepth := h.stackDepth
  depth_le := h.depth_le.trans hdepth
  rank_le := h.rank_le.trans hrank
  refusals_le := h.refusals_le.trans href

theorem quiet_goto (m : Machine) (c : Control) : Quiet m (m.goto c) c.rank c.refusals c.depth where
  numInstructions := rfl
  executed := rfl
  stackDepth := rfl
  depth_le := le_rfl
  rank_le := le_rfl
  refusals_le := le_rfl

theorem quiet_throwExecution (m : Machine) (what : String) (k : Frames x) :
    Quiet m (m.throwExecution what k) k.rank k.tries k.depth := quiet_goto m _

theorem quiet_fail (m : Machine) (e : ScriptFault) (k : Frames x) :
    Quiet m (m.fail e k) k.rank k.tries k.depth := by
  cases e with
  | execution | parse | standard => exact quiet_goto m _
  | undefined =>
    exact (quiet_goto m _).mono (Nat.zero_le _) (Nat.zero_le _) (Nat.zero_le _)

theorem quiet_returnValue (m : Machine) (result : Scripted Value) (k : Frames .value) :
    Quiet m (m.returnValue result k) (k.rank + 1) (k.tries + 1) k.depth := by
  cases result with
  | error e => exact (quiet_fail m e k).mono (Nat.le_succ _) (Nat.le_succ _) le_rfl
  | ok v => exact quiet_goto m _

theorem quiet_tryBranches (branches : List (Expression × List Statement)) (k : Frames .statement)
    (m : Machine) :
    Quiet m (tryBranches branches k m) (k.rank + branches.length + 4) (k.tries + 1) k.depth := by
  cases branches with
  | nil => exact (quiet_goto m _).mono (Nat.add_le_add_left (by decide) _) le_rfl le_rfl
  | cons branch rest =>
    apply (quiet_goto m _).mono _ le_rfl le_rfl
    show k.rank + rest.length + 4 + 1 ≤ k.rank + (rest.length + 1) + 4
    omega

theorem quiet_runScript (script : Text) (k : Frames .statement) (m : Machine) :
    Quiet m (runScript script k m) (k.rank + 4) (k.tries + 1) k.depth := by
  unfold runScript
  cases StatementParser.parseScript script m.stackDepth with
  | error e =>
    apply (quiet_fail m e _).mono _ (Nat.le_succ _) le_rfl
    exact Nat.add_le_add_left (by decide) k.rank
  | ok stats => exact quiet_goto m _

/-- A statement that needs a boolean. -/
theorem quiet_withBoolean {v : Value} {k : Frames .statement} {next : Bool → Machine} {rank : ℕ}
    (hrank : k.rank ≤ rank) (hnext : ∀ b, Quiet m (next b) rank (k.tries + 1) k.depth) :
    Quiet m (m.withBoolean v k next) rank (k.tries + 1) k.depth := by
  unfold withBoolean
  cases v.isTrue? with
  | some b => exact hnext b
  | none => exact (quiet_throwExecution m _ k).mono hrank (Nat.le_succ _) le_rfl

/-- **A value that is received** counts nothing, but for the missing side of a unary operator. -/
theorem receive_cases (S : Setting) (v : Value) (k : Frames .value) (m : Machine) :
    Quiet m (receive S v k m) k.rank (k.tries + 1) k.depth ∨
      ∃ zOperator k', k = .operatorRight zOperator none k' ∧
        receive S v k m = m.incrementInstructions S 1 k' fun m =>
          m.returnValue (S.library.applyOperator zOperator v none) k' := by
  cases k with
  | letVariable zName k => exact .inl ⟨⟨rfl, rfl, rfl, le_rfl⟩, le_rfl, le_rfl⟩
  | letPosition pos rest e k =>
    left
    unfold receive
    dsimp only
    split_ifs with hnumber
    · exact (quiet_throwExecution m _ k).mono (by simp only [Frames.rank]; omega) (Nat.le_succ _) le_rfl
    · cases rest with
      | nil => exact quiet_goto m _
      | cons p ps =>
        apply (quiet_goto m _).mono _ le_rfl le_rfl
        simp only [Control.rank, Frames.rank, List.length_cons]
        omega
  | assert k =>
    left
    apply quiet_withBoolean (Nat.le_succ _)
    intro b
    cases b with
    | true => exact quiet_goto m _
    | false =>
      unfold setRETURNValue
      split_ifs <;> exact ⟨⟨rfl, rfl, rfl, le_rfl⟩, le_rfl, le_rfl⟩
  | returns k =>
    left
    apply quiet_withBoolean (Nat.le_succ _)
    intro b
    unfold setRETURNValue
    split_ifs <;> exact ⟨⟨rfl, rfl, rfl, le_rfl⟩, le_rfl, le_rfl⟩
  | exec k =>
    left
    cases v with
    | script script => exact quiet_runScript script k m
    | boolean | hex | number =>
      exact (quiet_throwExecution m _ k).mono (Nat.le_add_right _ _) (Nat.le_succ _) le_rfl
  | mast k =>
    left
    cases v with
    | hex d =>
      unfold receive
      dsimp only
      cases S.witness.getScript d with
      | some scrpr => exact quiet_runScript scrpr.script k m
      | none =>
        exact (quiet_throwExecution m _ k).mono (Nat.le_add_right _ _) (Nat.le_succ _) le_rfl
    | boolean | script | number =>
      exact (quiet_throwExecution m _ k).mono (Nat.le_add_right _ _) (Nat.le_succ _) le_rfl
  | branch action rest k =>
    left
    apply quiet_withBoolean (by simp only [Frames.rank]; omega)
    intro b
    cases b with
    | true =>
      apply (quiet_goto m _).mono _ le_rfl le_rfl
      simp only [Control.rank, Frames.rank]
      omega
    | false => exact quiet_tryBranches rest k m
  | whileCheck e stats k =>
    left
    apply quiet_withBoolean (Nat.le_add_right _ _)
    intro b
    cases b with
    | true => exact quiet_goto m _
    | false => exact (quiet_goto m _).mono (Nat.add_le_add_left (by decide) _) le_rfl le_rfl
  | booleanRight zBooleanType zRight k => exact .inl (quiet_goto m _)
  | booleanEnd zBooleanType lval k => exact .inl (quiet_returnValue m _ k)
  | operatorRight zOperator zRight k =>
    show Quiet m (operate S zOperator zRight v k m) _ _ _ ∨ _
    cases hunary : isUnary zOperator with
    | true =>
      cases zRight with
      | none =>
        right
        refine ⟨zOperator, k, rfl, ?_⟩
        show operate S zOperator none v k m = _
        rw [operate, if_pos hunary]
        rfl
      | some right =>
        left
        rw [operate, if_pos hunary]
        exact (quiet_returnValue m _ k).mono (Nat.le_succ _) le_rfl le_rfl
    | false =>
      left
      have hbinary : ¬ isUnary zOperator = true := by rw [hunary]; exact Bool.false_ne_true
      unfold operate
      rw [if_neg hbinary]
      cases zRight with
      | none =>
        exact (quiet_throwExecution m _ k).mono (Nat.le_add_right _ _) (Nat.le_succ _) le_rfl
      | some right => exact quiet_goto m _
  | operatorEnd zOperator lval k => exact .inl (quiet_returnValue m _ k)
  | parameter params next k => exact .inl (quiet_goto m _)
  | attempt params accepts next otherwise k =>
    left
    show Quiet m (m.goto _) _ _ _
    apply (quiet_goto m _).mono _ (Nat.le_succ _) le_rfl
    simp only [Control.rank, Frames.rank]
    omega

/-- **A function** counts nothing on its way. -/
theorem quiet_perform {params : List Expression} {tries : Bool} {n : ℕ} (r : Routine tries n)
    (k : Frames .value) (m : Machine) (hcalls : ∀ result, r ≠ .answer result) :
    Quiet m (perform params r k m) (k.rank + 5 * n + 1) (k.tries + tries.toNat + 1) (k.depth + 1) := by
  cases r with
  | answer result => exact absurd rfl (hcalls result)
  | @ask _ n zParamNum next =>
    unfold perform
    dsimp only
    cases params[zParamNum]? with
    | some e =>
      apply (quiet_goto m _).mono _ le_rfl le_rfl
      simp only [Control.rank, Frames.rank]
      omega
    | none => exact (quiet_throwExecution m _ k).mono (by omega) (by omega) (Nat.le_succ _)
  | @attempt n zParamNum accepts next otherwise =>
    unfold perform
    dsimp only
    cases params[zParamNum]? with
    | some e =>
      apply (quiet_goto m _).mono _ le_rfl le_rfl
      simp only [Control.rank, Frames.rank]
      omega
    | none =>
      apply (quiet_throwExecution m _ _).mono _ (Nat.le_succ _) le_rfl
      simp only [Frames.rank]
      omega
  | @execute n script next =>
    unfold perform
    dsimp only
    have hremoved : Stays m (m.removeVariable Library.functionReturn) m.control.depth :=
      ⟨rfl, rfl, rfl, le_rfl⟩
    cases StatementParser.parseScript script (m.removeVariable Library.functionReturn).stackDepth with
    | ok stats =>
      refine ⟨⟨rfl, rfl, rfl, le_rfl⟩, ?_, le_rfl⟩
      show k.rank + 5 * n + 2 + 3 ≤ _
      omega
    | error e =>
      have h := quiet_fail (m.removeVariable Library.functionReturn) e (.functionEnd params next k)
      refine ⟨⟨h.numInstructions, h.executed, h.stackDepth, h.depth_le⟩, ?_, ?_⟩
      · apply h.rank_le.trans
        show k.rank + 5 * n + 2 ≤ _
        omega
      · exact Nat.le_succ_of_le h.refusals_le

/-- **An exception** leaves a call. -/
theorem quiet_unwind (e : Thrown) (k : Frames x) (m : Machine) :
    Quiet m (unwind e k m) (k.rank - 1) k.tries k.depth := by
  cases k with
  | finish => exact ⟨⟨rfl, rfl, rfl, le_rfl⟩, le_rfl, le_rfl⟩
  | attempt params accepts next otherwise k =>
    cases e with
    | execution what => exact quiet_goto m _
    | other what =>
      apply (quiet_goto m _).mono _ (Nat.le_succ _) (Nat.le_succ _)
      simp only [Control.rank, Frames.rank]
      omega
  | statements | functionEnd | parameter =>
    apply (quiet_goto m _).mono _ _ _
    · simp only [Control.rank, Frames.rank]; omega
    · simp only [Control.refusals, Frames.tries]; omega
    · simp only [Control.depth, Frames.depth]; omega
  | letVariable | letPosition | assert | returns | exec | mast | branch | whileCheck | branchEnd
  | whileBody | scriptEnd | booleanRight | booleanEnd | operatorRight | operatorEnd =>
    apply (quiet_goto m _).mono _ le_rfl le_rfl
    simp only [Control.rank, Frames.rank]
    omega

/-! ## Counting -/

/-- The instructions that a run may count above its limit: those of one `CHECKSIG`, and one for every
`PROOF` that fits into the stack depth beside it and the block of the script. -/
def overrun : ℤ := 31 + 62

/-- What holds of every state of a run. -/
structure Bounded (S : Setting) (m : Machine) : Prop where
  nonneg : 0 ≤ m.numInstructions
  executed_le : (m.executed : ℤ) ≤ m.numInstructions
  executed_le_limit : m.executed ≤ S.maxInstructions.toNat
  within : m.numInstructions ≤ S.maxInstructions ∨
    m.numInstructions + m.control.refusals ≤ max S.maxInstructions 0 + overrun
  depth_le : m.control.depth ≤ m.stackDepth
  depth_le_max : m.control.depth ≤ maxStackDepth

/-- The next step counts an instruction: that of an expression or of a statement, or of the check with
which a `WHILE` goes into its next turn. -/
def countsNext (m : Machine) : Bool :=
  match m.control with
  | .eval _ _ => true
  | .statements (_ :: _) _ => !m.successSet
  | .blockDone (.whileBody _ _ _) => !m.successSet
  | _ => false

/-- What a step does to a run: it keeps the bounds, and it counts or lowers the rank; above the limit it
executes nothing. -/
structure Advances (S : Setting) (m m' : Machine) : Prop where
  bounded : Bounded S m'
  counted : m.countsNext = true → m.numInstructions < m'.numInstructions
  counts : m.numInstructions < m'.numInstructions ∨
    m'.numInstructions = m.numInstructions ∧ m'.control.rank < m.control.rank
  lowers : S.maxInstructions < m.numInstructions →
    m'.control.rank < m.control.rank ∧ m'.executed = m.executed

/-- A run whose counter has just passed the check. -/
structure Passed (S : Setting) (m : Machine) : Prop where
  nonneg : 0 ≤ m.numInstructions
  executed_le : (m.executed : ℤ) ≤ m.numInstructions
  executed_le_limit : m.executed ≤ S.maxInstructions.toNat
  within : m.numInstructions ≤ S.maxInstructions

/-- **A quiet step advances.** -/
theorem Bounded.quiet (hm : Bounded S m) {rank refusals depth : ℕ} (h : Quiet m m' rank refusals depth)
    (hfree : m.countsNext = false) (hrank : rank < m.control.rank) (href : refusals ≤ m.control.refusals)
    (hdepth : depth ≤ m.control.depth) : Advances S m m' where
  bounded := {
    nonneg := by rw [h.numInstructions]; exact hm.nonneg
    executed_le := by rw [h.numInstructions, h.executed]; exact hm.executed_le
    executed_le_limit := by rw [h.executed]; exact hm.executed_le_limit
    within := by
      rw [h.numInstructions]
      have hle := h.refusals_le
      rcases hm.within with hlimit | hover
      · exact .inl hlimit
      · exact .inr (by omega)
    depth_le := by rw [h.stackDepth]; exact (h.depth_le.trans hdepth).trans hm.depth_le
    depth_le_max := (h.depth_le.trans hdepth).trans hm.depth_le_max }
  counted := fun hcount => absurd (hfree.symm.trans hcount) Bool.false_ne_true
  counts := .inr ⟨h.numInstructions, h.rank_le.trans_lt hrank⟩
  lowers := fun _ => ⟨h.rank_le.trans_lt hrank, h.executed⟩

/-- A step behind the check keeps the bounds. -/
theorem Passed.bounded_of_stays (hm : Passed S m) {depth : ℕ} (h : Stays m m' depth)
    (hdepth : depth ≤ m.stackDepth) (hmax : depth ≤ maxStackDepth) : Bounded S m' where
  nonneg := by rw [h.numInstructions]; exact hm.nonneg
  executed_le := by rw [h.numInstructions, h.executed]; exact hm.executed_le
  executed_le_limit := by rw [h.executed]; exact hm.executed_le_limit
  within := by rw [h.numInstructions]; exact .inl hm.within
  depth_le := by rw [h.stackDepth]; exact h.depth_le.trans hdepth
  depth_le_max := h.depth_le.trans hmax

/-- Below the largest `int` the counter does not wrap around. -/
theorem addInt_of_lt {a : ℤ} {z : ℕ} (ha : 0 ≤ a) (h : a + z < 2 ^ 31) : addInt a z = a + z := by
  unfold addInt
  rw [Int.bmod_def]
  omega

/-- **`incrementInstructions`** goes on under the limit, and throws above it. -/
theorem incrementInstructions_cases (S : Setting) {z : ℕ} (m : Machine) (k : Frames x)
    (next : Machine → Machine) (hm : 0 ≤ m.numInstructions) (h : m.numInstructions + z < 2 ^ 31) :
    (m.numInstructions + z ≤ S.maxInstructions ∧ m.incrementInstructions S z k next =
        next { m with numInstructions := m.numInstructions + z, executed := m.executed + z }) ∨
      (S.maxInstructions < m.numInstructions + z ∧ ∃ what, m.incrementInstructions S z k next =
        { m with numInstructions := m.numInstructions + z }.throwExecution what k) := by
  unfold incrementInstructions
  rw [addInt_of_lt hm h]
  dsimp only
  split_ifs with hlimit
  · exact .inr ⟨hlimit, _, rfl⟩
  · exact .inl ⟨not_lt.mp hlimit, rfl⟩

/-- **A step that counts an instruction advances**, if what comes behind the check keeps the bounds and
counts no less. -/
theorem Bounded.count (hS : S.maxInstructions + overrun < 2 ^ 31) (hm : Bounded S m) {k : Frames x}
    {next : Machine → Machine} (hrank : k.rank < m.control.rank)
    (href : k.tries + 1 ≤ m.control.refusals) (htries : k.tries < maxStackDepth)
    (hdepth : k.depth ≤ m.control.depth)
    (hnext : ∀ m₁, Passed S m₁ → m₁.stackDepth = m.stackDepth →
      Bounded S (next m₁) ∧ m₁.numInstructions ≤ (next m₁).numInstructions) :
    Advances S m (m.incrementInstructions S 1 k next) := by
  have hnonneg := hm.nonneg
  have hexecuted := hm.executed_le
  have hwithin := hm.within
  unfold overrun at hS hwithin
  unfold maxStackDepth at htries
  have hfits : m.numInstructions + (1 : ℕ) < 2 ^ 31 := by omega
  rcases incrementInstructions_cases S m k next hnonneg hfits with ⟨hpass, heq⟩ | ⟨hover, what, heq⟩
  · rw [heq]
    have hpassed : Passed S
        { m with numInstructions := m.numInstructions + (1 : ℕ), executed := m.executed + 1 } := by
      refine ⟨?_, ?_, ?_, hpass⟩
      · show 0 ≤ m.numInstructions + (1 : ℕ)
        omega
      · show ((m.executed + 1 : ℕ) : ℤ) ≤ m.numInstructions + (1 : ℕ)
        omega
      · show m.executed + 1 ≤ S.maxInstructions.toNat
        omega
    obtain ⟨hbounded, hle⟩ := hnext _ hpassed rfl
    have hle' : m.numInstructions + (1 : ℕ) ≤ (next _).numInstructions := hle
    refine ⟨hbounded, fun _ => by omega, .inl (by omega), fun hlimit => ?_⟩
    omega
  · rw [heq]
    have hup : m.numInstructions < m.numInstructions + (1 : ℕ) := by omega
    refine ⟨⟨?_, ?_, hm.executed_le_limit, .inr ?_, hdepth.trans hm.depth_le,
      hdepth.trans hm.depth_le_max⟩, fun _ => hup, .inl hup, fun _ => ⟨hrank, rfl⟩⟩
    · show 0 ≤ m.numInstructions + (1 : ℕ)
      omega
    · show (m.executed : ℤ) ≤ m.numInstructions + (1 : ℕ)
      omega
    · show m.numInstructions + (1 : ℕ) + k.tries ≤ max S.maxInstructions 0 + overrun
      unfold overrun
      omega

/-- **A function call** behind its instruction keeps the bounds: the stack has room for the functions
under way, so that the 31 instructions of `CHECKSIG` stay within the overrun. -/
theorem Passed.keeps_callFunction (hS : S.maxInstructions + overrun < 2 ^ 31) (hm : Passed S m)
    {k : Frames .value} (hdepth : k.depth ≤ m.stackDepth) (hmax : k.depth ≤ maxStackDepth)
    (f : MinimaFunction) (params : List Expression) :
    Bounded S (callFunction S f params k m) ∧
      m.numInstructions ≤ (callFunction S f params k m).numInstructions := by
  have hnonneg := hm.nonneg
  have hexecuted := hm.executed_le
  have hwithin := hm.within
  have htries := k.tries_add_margin_le_depth
  unfold callFunction incrementStackDepth
  split_ifs with hdeep
  · refine ⟨⟨hnonneg, hexecuted, hm.executed_le_limit, .inl hwithin, ?_, hmax⟩, le_rfl⟩
    exact Nat.le_succ_of_le hdepth
  · rw [not_lt] at hdeep
    have hroom : k.depth + 1 ≤ maxStackDepth := (Nat.succ_le_succ hdepth).trans hdeep
    dsimp only
    split_ifs with hfree
    · exact ⟨⟨hnonneg, hexecuted, hm.executed_le_limit, .inl hwithin, Nat.succ_le_succ hdepth, hroom⟩,
        le_rfl⟩
    · have hcost := (S.library.call f params.length).increments_le
      generalize S.library.call f params.length = call at hcost hfree ⊢
      unfold overrun at hS
      unfold maxStackDepth at hroom
      simp only [Frames.margin] at htries
      rcases incrementInstructions_cases S { m with stackDepth := m.stackDepth + 1 } k
        (fun m => m.goto (.routine params call.routine k)) hnonneg
        (show m.numInstructions + (call.increments : ℤ) < 2 ^ 31 by omega) with
        ⟨hpass, heq⟩ | ⟨hover, what, heq⟩
      · rw [heq]
        refine ⟨⟨?_, ?_, ?_, .inl hpass, Nat.succ_le_succ hdepth, hroom⟩, ?_⟩
        · show 0 ≤ m.numInstructions + (call.increments : ℤ)
          omega
        · show ((m.executed + call.increments : ℕ) : ℤ) ≤ m.numInstructions + (call.increments : ℤ)
          omega
        · show m.executed + call.increments ≤ S.maxInstructions.toNat
          have hpass' : m.numInstructions + (call.increments : ℤ) ≤ S.maxInstructions := hpass
          omega
        · show m.numInstructions ≤ m.numInstructions + (call.increments : ℤ)
          omega
      · rw [heq]
        refine ⟨⟨?_, ?_, hm.executed_le_limit, .inr ?_, Nat.le_succ_of_le hdepth, hmax⟩, ?_⟩
        · show 0 ≤ m.numInstructions + (call.increments : ℤ)
          omega
        · show (m.executed : ℤ) ≤ m.numInstructions + (call.increments : ℤ)
          omega
        · show m.numInstructions + (call.increments : ℤ) + k.tries ≤ max S.maxInstructions 0 + overrun
          unfold overrun
          omega
        · show m.numInstructions ≤ m.numInstructions + (call.increments : ℤ)
          omega

/-- **An expression** behind its instruction keeps the bounds. -/
theorem Passed.keeps_dispatch (hS : S.maxInstructions + overrun < 2 ^ 31) (hm : Passed S m)
    {k : Frames .value} (hdepth : k.depth ≤ m.stackDepth) (hmax : k.depth ≤ maxStackDepth)
    (e : Expression) :
    Bounded S (dispatch S e k m) ∧ m.numInstructions ≤ (dispatch S e k m).numInstructions := by
  have hstays : ∀ m', Stays m m' k.depth →
      Bounded S m' ∧ m.numInstructions ≤ m'.numInstructions :=
    fun m' h => ⟨hm.bounded_of_stays h hdepth hmax, h.numInstructions.ge⟩
  match e with
  | .constant v => exact hstays _ (quiet_goto m _).toStays
  | .global zType =>
    apply hstays
    unfold dispatch
    dsimp only
    cases S.globals zType with
    | some v => exact (quiet_goto m _).toStays
    | none => exact (quiet_throwExecution m _ k).toStays
  | .variable zName =>
    apply hstays
    unfold dispatch
    dsimp only
    cases m.vars zName with
    | some v => exact (quiet_goto m _).toStays
    | none => exact (quiet_throwExecution m _ k).toStays
  | .boolean zBooleanType zLeft zRight => exact hstays _ (quiet_goto m _).toStays
  | .operator zOperator zLeft zRight => exact hstays _ (quiet_goto m _).toStays
  | .function f params => exact hm.keeps_callFunction hS hdepth hmax f params

/-- **A statement** behind its instruction. -/
theorem stays_execute (s : Statement) (k : Frames .statement) (m : Machine) :
    Stays m (execute s k m) k.depth := by
  cases s with
  | letArray ps e =>
    cases ps with
    | nil => exact (quiet_goto m _).toStays
    | cons p ps => exact (quiet_goto m _).toStays
  | ifs branches => exact (quiet_tryBranches branches k m).toStays
  | letVariable | exec | mast | whiles | assert | returns => exact (quiet_goto m _).toStays

/-! ## Steps -/

section Steps

variable (hm : Bounded S m)
include hm

theorem routine_advances {params : List Expression} {tries : Bool} {n : ℕ} {r : Routine tries n}
    {k : Frames .value} (hc : m.control = .routine params r k) : Advances S m (perform params r k m) := by
  have hfree : m.countsNext = false := by rw [countsNext, hc]
  have hdepth := hm.depth_le
  have hmax := hm.depth_le_max
  rw [hc] at hdepth hmax
  by_cases hanswer : ∃ result, r = .answer result
  · obtain ⟨result, rfl⟩ := hanswer
    unfold perform
    dsimp only
    cases result m.vars with
    | error e =>
      apply hm.quiet (quiet_fail m e k) hfree
      · rw [hc]; simp only [Control.rank]; omega
      · rw [hc]; simp only [Control.refusals]; omega
      · rw [hc]; exact Nat.le_succ _
    | ok v =>
      -- the function leaves the stack
      have hwithin := hm.within
      rw [hc] at hwithin
      simp only [Control.depth, Control.refusals] at hdepth hmax hwithin
      have hrank : k.rank + 1 < m.control.rank := by rw [hc]; simp only [Control.rank]; omega
      refine ⟨⟨hm.nonneg, hm.executed_le, hm.executed_le_limit, ?_, ?_, ?_⟩,
        fun hcount => absurd (hfree.symm.trans hcount) Bool.false_ne_true, .inr ⟨rfl, hrank⟩,
        fun _ => ⟨hrank, rfl⟩⟩
      · rcases hwithin with hlimit | hover
        · exact .inl hlimit
        · right
          show m.numInstructions + ((k.tries + 1 : ℕ) : ℤ) ≤ max S.maxInstructions 0 + overrun
          push_cast at hover ⊢
          omega
      · show k.depth ≤ m.stackDepth - 1
        omega
      · show k.depth ≤ maxStackDepth
        omega
  · apply hm.quiet (quiet_perform r k m fun result hr => hanswer ⟨result, hr⟩) hfree
    · rw [hc]; exact Nat.lt_succ_self _
    · rw [hc]; exact le_rfl
    · rw [hc]; exact le_rfl

theorem block_advances {stats : List Statement} {k : Frames .block} (hc : m.control = .block stats k) :
    Advances S m (m.incrementStackDepth k fun m => m.goto (.statements stats k)) := by
  have hfree : m.countsNext = true → m.numInstructions < m.numInstructions := by
    rw [countsNext, hc]
    exact fun hcount => absurd hcount Bool.false_ne_true
  have hdepth := hm.depth_le
  have hmax := hm.depth_le_max
  have hwithin := hm.within
  rw [hc] at hdepth hmax hwithin
  unfold incrementStackDepth
  split_ifs with hdeep
  · have hrank : k.rank < m.control.rank := by rw [hc]; simp only [Control.rank]; omega
    refine ⟨⟨hm.nonneg, hm.executed_le, hm.executed_le_limit, ?_, Nat.le_succ_of_le hdepth, hmax⟩,
      hfree, .inr ⟨rfl, hrank⟩, fun _ => ⟨hrank, rfl⟩⟩
    rcases hwithin with hlimit | hover
    · exact .inl hlimit
    · right
      show m.numInstructions + (k.tries : ℤ) ≤ max S.maxInstructions 0 + overrun
      simp only [Control.refusals] at hover
      push_cast at hover
      omega
  · rw [not_lt] at hdeep
    have hrank : k.rank + 2 < m.control.rank := by rw [hc]; simp only [Control.rank]; omega
    exact ⟨⟨hm.nonneg, hm.executed_le, hm.executed_le_limit, hwithin, Nat.succ_le_succ hdepth,
      (Nat.succ_le_succ hdepth).trans hdeep⟩, hfree, .inr ⟨rfl, hrank⟩, fun _ => ⟨hrank, rfl⟩⟩

variable (hS : S.maxInstructions + overrun < 2 ^ 31)
include hS

theorem eval_advances {e : Expression} {k : Frames .value} (hc : m.control = .eval e k) :
    Advances S m (m.incrementInstructions S 1 k (dispatch S e k)) := by
  have htries := k.tries_add_margin_le_depth
  have hdepth := hm.depth_le
  have hmax := hm.depth_le_max
  rw [hc] at hdepth hmax
  apply hm.count hS
  · rw [hc]; exact Nat.lt_succ_self _
  · rw [hc]; exact le_rfl
  · exact Nat.lt_of_succ_le (htries.trans hmax)
  · rw [hc]; exact le_rfl
  · intro m₁ hpassed hsame
    exact hpassed.keeps_dispatch hS (hsame ▸ hdepth) hmax e

theorem value_advances {v : Value} {k : Frames .value} (hc : m.control = .value v k) :
    Advances S m (receive S v k m) := by
  rcases receive_cases S v k m with hquiet | ⟨zOperator, k', rfl, heq⟩
  · apply hm.quiet hquiet
    · rw [countsNext, hc]
    · rw [hc]; exact Nat.lt_succ_self _
    · rw [hc]; exact le_rfl
    · rw [hc]; exact le_rfl
  · have htries := k'.tries_add_margin_le_depth
    have hdepth := hm.depth_le
    have hmax := hm.depth_le_max
    rw [hc] at hdepth hmax
    rw [heq]
    apply hm.count hS
    · rw [hc]; simp only [Control.rank, Frames.rank]; omega
    · rw [hc]; exact le_rfl
    · exact Nat.lt_of_succ_le (htries.trans hmax)
    · rw [hc]; exact le_rfl
    · intro m₁ hpassed hsame
      have hstays := (quiet_returnValue m₁ (S.library.applyOperator zOperator v none) k').toStays
      exact ⟨hpassed.bounded_of_stays hstays (hsame ▸ hdepth) hmax, hstays.numInstructions.ge⟩

theorem statements_advances {rest : List Statement} {k : Frames .block}
    (hc : m.control = .statements rest k) : Advances S m (nextStatement S rest k m) := by
  have hdepth := hm.depth_le
  have hmax := hm.depth_le_max
  have htries := k.tries_add_margin_le_depth
  rw [hc] at hdepth hmax
  cases rest with
  | nil =>
    -- the block leaves the stack
    have hwithin := hm.within
    rw [hc] at hwithin
    have hrank : k.rank + 1 < m.control.rank := by rw [hc]; exact Nat.lt_succ_self _
    simp only [Control.depth] at hdepth hmax
    have hfree : m.countsNext = true → m.numInstructions < m.numInstructions := by
      rw [countsNext, hc]
      exact fun hcount => absurd hcount Bool.false_ne_true
    refine ⟨⟨hm.nonneg, hm.executed_le, hm.executed_le_limit, hwithin, ?_, ?_⟩, hfree,
      .inr ⟨rfl, hrank⟩, fun _ => ⟨hrank, rfl⟩⟩
    · show k.depth ≤ m.stackDepth - 1
      omega
    · show k.depth ≤ maxStackDepth
      omega
  | cons s rest =>
    unfold nextStatement
    dsimp only
    split_ifs with hset
    · apply hm.quiet (quiet_goto m _)
      · simp only [countsNext, hc, hset, Bool.not_true]
      · rw [hc]; exact Nat.lt_succ_self _
      · rw [hc]; exact le_rfl
      · rw [hc]; exact Nat.le_succ _
    · apply hm.count hS
      · rw [hc]; simp only [Control.rank]; omega
      · rw [hc]; exact le_rfl
      · exact Nat.lt_of_succ_le ((Nat.succ_le_succ htries).trans hmax)
      · rw [hc]; exact Nat.le_succ _
      · intro m₁ hpassed hsame
        have hstays := stays_execute s (.statements rest k) m₁
        exact ⟨hpassed.bounded_of_stays hstays (hsame ▸ hdepth) hmax, hstays.numInstructions.ge⟩

theorem blockDone_advances {k : Frames .block} (hc : m.control = .blockDone k) :
    Advances S m (leaveBlock S k m) := by
  have hdepth := hm.depth_le
  have hmax := hm.depth_le_max
  rw [hc] at hdepth hmax
  -- the frame is left for good
  have hleave : ∀ c : Control, m.countsNext = false → c.rank ≤ k.rank → c.refusals ≤ k.tries + 1 →
      c.depth ≤ k.depth → Advances S m (m.goto c) := by
    intro c hfree hrank href hdepth'
    apply hm.quiet ((quiet_goto m c).mono hrank href hdepth') hfree
    · rw [hc]; exact Nat.lt_succ_self _
    · rw [hc]; exact le_rfl
    · rw [hc]; exact le_rfl
  cases k with
  | finish =>
    exact hleave .finished (by rw [countsNext, hc]) (Nat.zero_le _) (Nat.zero_le _) (Nat.zero_le _)
  | branchEnd k => exact hleave _ (by rw [countsNext, hc]) le_rfl le_rfl le_rfl
  | scriptEnd k => exact hleave _ (by rw [countsNext, hc]) le_rfl le_rfl le_rfl
  | functionEnd params next k => exact hleave _ (by rw [countsNext, hc]) le_rfl le_rfl le_rfl
  | whileBody e stats k =>
    have htries := k.tries_add_margin_le_depth
    unfold leaveBlock
    dsimp only
    split_ifs with hset
    · exact hleave _ (by simp only [countsNext, hc, hset, Bool.not_true]) le_rfl le_rfl le_rfl
    · apply hm.count hS
      · rw [hc]; simp only [Control.rank, Frames.rank]; omega
      · rw [hc]; exact le_rfl
      · exact Nat.lt_of_succ_le (htries.trans hmax)
      · rw [hc]; exact le_rfl
      · intro m₁ hpassed hsame
        exact hpassed.keeps_dispatch hS (k := .whileCheck e stats k) (hsame ▸ hdepth) hmax e

/-- **Every step advances.** -/
theorem step_advances (hrun : m.isEnded = false) : Advances S m (m.step S) := by
  unfold step
  cases hc : m.control with
  | eval e k => exact eval_advances hm hS hc
  | value v k => exact value_advances hm hS hc
  | routine params r k => exact routine_advances hm hc
  | block stats k => exact block_advances hm hc
  | statements rest k => exact statements_advances hm hS hc
  | blockDone k => exact blockDone_advances hm hS hc
  | statementDone k =>
    cases k with
    | statements rest k =>
      apply hm.quiet (quiet_goto m _)
      · rw [countsNext, hc]
      · rw [hc]; exact Nat.lt_succ_self _
      · rw [hc]; exact le_rfl
      · rw [hc]; exact le_rfl
  | throwing e k =>
    have hpos : 0 < k.rank := by cases k <;> exact Nat.succ_pos _
    apply hm.quiet (quiet_unwind e k m)
    · rw [countsNext, hc]
    · rw [hc]; exact Nat.sub_lt hpos Nat.one_pos
    · rw [hc]; exact le_rfl
    · rw [hc]; exact le_rfl
  | finished =>
    unfold isEnded at hrun
    rw [hc] at hrun
    cases hrun
  | crashed what =>
    unfold isEnded at hrun
    rw [hc] at hrun
    cases hrun

end Steps

/-- A run that has ended stays where it is. -/
theorem step_of_isEnded (S : Setting) {m : Machine} (hend : ¬ m.isEnded = false) : m.step S = m := by
  rw [Bool.not_eq_false] at hend
  unfold isEnded at hend
  unfold step
  cases hc : m.control with
  | finished | crashed => rfl
  | eval | value | routine | block | statements | blockDone | statementDone | throwing =>
    rw [hc] at hend
    cases hend

/-- **The interpreter counts.** -/
theorem counts (hS : S.maxInstructions + overrun < 2 ^ 31) :
    Counts (step S) (fun m => m.isEnded = false) (Bounded S) numInstructions (fun m => m.control.rank)
      S.maxInstructions where
  keeps := by
    intro m hm
    by_cases hrun : m.isEnded = false
    · exact (step_advances hm hS hrun).bounded
    · rw [step_of_isEnded S hrun]
      exact hm
  stops := fun m hend => step_of_isEnded S hend
  advances := fun m hm hrun => (step_advances hm hS hrun).counts
  lowers := fun m hm hrun hlimit => ((step_advances hm hS hrun).lowers hlimit).1

end Machine

/-! ## Runs -/

namespace Contract

open Machine

theorem bounded_start (S : Setting) (zRamScript : Text) : Bounded S (start zRamScript) := by
  have hrefusals : (start zRamScript).control.refusals ≤ 1 ∧ (start zRamScript).control.depth = 0 := by
    unfold start
    dsimp only
    cases StatementParser.parseScript zRamScript 0 with
    | ok stats => exact ⟨le_rfl, rfl⟩
    | error e => cases e <;> exact ⟨Nat.zero_le _, rfl⟩
  obtain ⟨hone, hzero⟩ := hrefusals
  refine ⟨le_rfl, le_rfl, Nat.zero_le _, .inr ?_, hzero.le, hzero.trans_le (Nat.zero_le _)⟩
  show (0 : ℤ) + (start zRamScript).control.refusals ≤ max S.maxInstructions 0 + overrun
  unfold overrun
  omega

theorem runFor_succ (S : Setting) (zRamScript : Text) (k : ℕ) :
    runFor S zRamScript (k + 1) = (runFor S zRamScript k).step S :=
  Function.iterate_succ_apply' _ _ _

/-- The run of a script ends, and its limit bounds it. -/
structure EndsWithin (S : Setting) (zRamScript : Text) : Prop where
  /-- The run ends. -/
  ends : ∃ k, (runFor S zRamScript k).isEnded = true
  /-- At most the limit's number of instructions is executed. -/
  executed_le : ∀ k, (runFor S zRamScript k).executed ≤ S.maxInstructions.toNat
  /-- Every expression (a function call among them), every statement and every turn of a `WHILE`
  counts. -/
  counts : ∀ k, (runFor S zRamScript k).countsNext = true →
    (runFor S zRamScript k).numInstructions < (runFor S zRamScript (k + 1)).numInstructions
  /-- Between two visits of one point, while the run goes on, the counter goes up. -/
  revisits : ∀ j k, j < k → (runFor S zRamScript k).isEnded = false →
    (runFor S zRamScript j).control = (runFor S zRamScript k).control →
      (runFor S zRamScript j).numInstructions < (runFor S zRamScript k).numInstructions
  /-- Above the limit nothing more is executed. -/
  refuses : ∀ j k, j ≤ k → S.maxInstructions < (runFor S zRamScript j).numInstructions →
    (runFor S zRamScript k).executed = (runFor S zRamScript j).executed

/-- Above the limit the counter does not come back, and nothing is executed. -/
theorem executed_of_over {S : Setting} (hS : S.maxInstructions + overrun < 2 ^ 31) {zRamScript : Text}
    {j k : ℕ} (hjk : j ≤ k) (hover : S.maxInstructions < (runFor S zRamScript j).numInstructions) :
    S.maxInstructions < (runFor S zRamScript k).numInstructions ∧
      (runFor S zRamScript k).executed = (runFor S zRamScript j).executed := by
  induction k, hjk using Nat.le_induction with
  | base => exact ⟨hover, rfl⟩
  | succ k hjk ih =>
    obtain ⟨hlimit, hexecuted⟩ := ih
    rw [runFor_succ]
    by_cases hrun : (runFor S zRamScript k).isEnded = false
    · have hstep := step_advances ((Machine.counts hS).inv_iterate (bounded_start S zRamScript) k) hS hrun
      have hup := hstep.counts
      refine ⟨?_, (hstep.lowers hlimit).2.trans hexecuted⟩
      show S.maxInstructions < (Machine.step S (runFor S zRamScript k)).numInstructions
      change (runFor S zRamScript k).numInstructions < _ ∨ _ at hup
      rcases hup with hlt | ⟨hsame, -⟩
      · exact hlimit.trans hlt
      · exact hlimit.trans_eq hsame.symm
    · rw [step_of_isEnded S hrun]
      exact ⟨hlimit, hexecuted⟩

/-- **Every run ends within its limit**, as long as the limit leaves room in an `int` for the overrun. -/
theorem endsWithin (S : Setting) (zRamScript : Text) (hS : S.maxInstructions + overrun < 2 ^ 31) :
    EndsWithin S zRamScript where
  ends := by
    obtain ⟨k, hk⟩ := (Machine.counts hS).exists_stop (bounded_start S zRamScript)
    exact ⟨k, Bool.of_not_eq_false hk⟩
  executed_le := fun k =>
    ((Machine.counts hS).inv_iterate (bounded_start S zRamScript) k).executed_le_limit
  counts := by
    intro k hcount
    have hbounded := (Machine.counts hS).inv_iterate (bounded_start S zRamScript) k
    rw [runFor_succ]
    by_cases hrun : (runFor S zRamScript k).isEnded = false
    · exact (step_advances hbounded hS hrun).counted hcount
    · -- a run that has ended counts nothing
      unfold isEnded at hrun
      unfold countsNext at hcount
      cases hc : (runFor S zRamScript k).control <;> rw [hc] at hrun hcount <;> simp at hrun hcount
  revisits := by
    intro j k hjk hrun hcontrol
    apply (Machine.counts hS).counter_lt (bounded_start S zRamScript) hjk hrun
    exact (congrArg Control.rank hcontrol).le
  refuses := fun j k hjk hover => (executed_of_over hS hjk hover).2

/-! ## A run without end -/

/-- Parts of the node that no script gets anything from. -/
def idleLibrary : Library where
  crypto := .plain
  verify := fun _ _ _ => .ok false
  safeReplaceAll := fun zStart _ _ => .ok zStart
  applyOperator := fun _ _ _ => .error (.execution "UNKNOWN operator")
  asks := fun _ _ => 0
  runFunction := fun _ _ => .answer fun _ => .error (.execution "UNKNOWN function")

/-- A contract with a limit and nothing else. -/
def withLimit (zMax : ℤ) : Setting := ⟨idleLibrary, zMax, fun _ => none, .empty⟩

/-- A loop. -/
def endlessScript : Text := MiniNumber.ascii "WHILE TRUE DO ENDWHILE"

theorem endsWithin_endlessScript :
    (withLimit 1024).maxInstructions + overrun < 2 ^ 31 ∧ EndsWithin (withLimit 1024) endlessScript :=
  ⟨by decide, endsWithin (withLimit 1024) endlessScript (by decide)⟩

/-- The check of the loop. -/
def endlessCheck : Expression := .constant (.boolean true)

/-- Behind the loop there is nothing. -/
def behindLoop : Frames .statement := .statements [] .finish

/-- The places of the loop, with their stack depths. -/
inductive Looping : ℕ → Control → Prop where
  | start : Looping 0 (.block [.whiles endlessCheck []] .finish)
  | statement : Looping 1 (.statements [.whiles endlessCheck []] .finish)
  | check : Looping 1 (.eval endlessCheck (.whileCheck endlessCheck [] behindLoop))
  | checked : Looping 1 (.value (.boolean true) (.whileCheck endlessCheck [] behindLoop))
  | enter : Looping 1 (.block [] (.whileBody endlessCheck [] behindLoop))
  | body : Looping 2 (.statements [] (.whileBody endlessCheck [] behindLoop))
  | leave : Looping 1 (.blockDone (.whileBody endlessCheck [] behindLoop))

/-- A parsed script that is the loop. -/
def isLoop : Scripted (List Statement) → Bool
  | .ok [.whiles (.constant (.boolean true)) []] => true
  | _ => false

theorem parseScript_endlessScript :
    StatementParser.parseScript endlessScript 0 = .ok [.whiles endlessCheck []] := by
  have hloop : isLoop (StatementParser.parseScript endlessScript 0) = true := by decide +kernel
  unfold isLoop at hloop
  split at hloop
  · rename_i heq
    exact heq
  · cases hloop

/-- With the largest `int` as the limit no instruction is refused. -/
theorem incrementInstructions_of_max {S : Setting} (hmax : S.maxInstructions = 2 ^ 31 - 1) (z : ℕ)
    (m : Machine) {x : Expects} (k : Frames x) (next : Machine → Machine) :
    m.incrementInstructions S z k next =
      next { m with numInstructions := addInt m.numInstructions z, executed := m.executed + z } := by
  have hint : addInt m.numInstructions z < 2 ^ 31 := by
    unfold addInt
    rw [Int.bmod_def]
    omega
  unfold incrementInstructions
  dsimp only
  rw [if_neg (by omega)]

/-- **The loop goes round.** -/
theorem Looping.step {S : Setting} (hmax : S.maxInstructions = 2 ^ 31 - 1) {m : Machine}
    (hloop : Looping m.stackDepth m.control) (hset : m.successSet = false) :
    Looping (m.step S).stackDepth (m.step S).control ∧ (m.step S).successSet = false := by
  obtain ⟨numInstructions, executed, stackDepth, vars, success, successSet, control⟩ := m
  dsimp only at hloop hset
  subst hset
  cases hloop with
  | start => exact ⟨.statement, rfl⟩
  | statement =>
    simp only [Machine.step, nextStatement, incrementInstructions_of_max hmax, Bool.false_eq_true,
      if_false]
    exact ⟨.check, rfl⟩
  | check =>
    simp only [Machine.step, incrementInstructions_of_max hmax]
    exact ⟨.checked, rfl⟩
  | checked => exact ⟨.enter, rfl⟩
  | enter => exact ⟨.body, rfl⟩
  | body => exact ⟨.leave, rfl⟩
  | leave =>
    simp only [Machine.step, leaveBlock, incrementInstructions_of_max hmax, Bool.false_eq_true,
      if_false]
    exact ⟨.checked, rfl⟩

/-- The loop is run for ever. -/
theorem looping_runFor {S : Setting} (hmax : S.maxInstructions = 2 ^ 31 - 1) (k : ℕ) :
    Looping (runFor S endlessScript k).stackDepth (runFor S endlessScript k).control ∧
      (runFor S endlessScript k).successSet = false := by
  induction k with
  | zero =>
    refine ⟨?_, rfl⟩
    show Looping 0 (start endlessScript).control
    unfold start
    rw [parseScript_endlessScript]
    exact .start
  | succ k ih =>
    rw [runFor_succ]
    exact Looping.step hmax ih.1 ih.2

/-- **With the largest `int` as its limit** the loop has no end. -/
theorem not_endsWithin : ¬ EndsWithin (withLimit (2 ^ 31 - 1)) endlessScript := by
  intro h
  obtain ⟨k, hk⟩ := h.ends
  have hloop := (looping_runFor (S := withLimit (2 ^ 31 - 1)) rfl k).1
  unfold isEnded at hk
  generalize (runFor (withLimit (2 ^ 31 - 1)) endlessScript k).control = c at hloop hk
  generalize (runFor (withLimit (2 ^ 31 - 1)) endlessScript k).stackDepth = d at hloop
  cases hloop <;> cases hk

end Contract

end Minima.Kissvm
