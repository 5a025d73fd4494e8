import Minima.Kissvm.Machine

/-! # A function on values

What a function makes of its parameters depends on their values alone. `Routine.evaluate` runs a
routine on such values; the text it has run is given to a parameter.

* **`Routine.evaluate`** — the value of a function.
* **`Machine.routine_evaluate`** — the machine computes it, unless it is stopped by its limits. -/

namespace Minima.Kissvm

/-- What the `try` around the run of a text makes of a failure. -/
def ScriptFault.toExecution : ScriptFault → ScriptFault
  | .execution what => .execution what
  | .parse what => .execution what
  | .standard what => .execution what
  | .undefined what => .undefined what

namespace Routine

/-- The value of a function whose parameters have these values. `run` says which variables there are
after a text has run. -/
def evaluate (run : Text → Scripted Variables) (values : List Value) (vars : Variables) {tries : Bool}
    {n : ℕ} (r : Routine tries n) : Scripted Value :=
  match r with
  | answer result => result vars
  | ask zParamNum next =>
    match values[zParamNum]? with
    | some v => evaluate run values vars (next v)
    | none => .error (.execution "Parameter missing for ")
  | attempt zParamNum accepts next otherwise =>
    match values[zParamNum]? with
    | some v =>
      if accepts v then evaluate run values vars (next v) else evaluate run values vars otherwise
    | none => evaluate run values vars otherwise
  | execute script next =>
    match run script with
    | .ok vars => evaluate run values vars next
    | .error e => .error e.toExecution

/-- The routine catches nothing and runs no text. -/
def Plain {tries : Bool} {n : ℕ} (r : Routine tries n) : Prop :=
  match r with
  | answer _ => True
  | ask _ next => ∀ v, Plain (next v)
  | attempt _ _ _ _ => False
  | execute _ _ => False

section

variable (run : Text → Scripted Variables) (values : List Value) (vars : Variables) {tries : Bool} {n : ℕ}

@[simp] theorem evaluate_answer (result : Variables → Scripted Value) :
    evaluate run values vars (answer result : Routine tries n) = result vars := by
  rw [evaluate]

@[simp] theorem evaluate_throwExecution (what : String) :
    evaluate run values vars (throwExecution what : Routine tries n) = .error (.execution what) := by
  rw [throwExecution, evaluate_answer]

variable {values}

theorem evaluate_ask {i : ℕ} {v : Value} (next : Value → Routine tries n) (h : values[i]? = some v) :
    evaluate run values vars (ask i next) = evaluate run values vars (next v) := by
  rw [evaluate, h]

theorem evaluate_getHexParam {i : ℕ} {d : MiniData} (next : MiniData → Routine tries n)
    (h : values[i]? = some (.hex d)) :
    evaluate run values vars (getHexParam i next) = evaluate run values vars (next d) :=
  evaluate_ask run vars _ h

theorem evaluate_getNumberParam {i : ℕ} {x : MiniNumber} (next : MiniNumber → Routine tries n)
    (h : values[i]? = some (.number x)) :
    evaluate run values vars (getNumberParam i next) = evaluate run values vars (next x) :=
  evaluate_ask run vars _ h

theorem evaluate_getStringParam {i : ℕ} {s : Text} (next : Text → Routine tries n)
    (h : values[i]? = some (.script s)) :
    evaluate run values vars (getStringParam i next) = evaluate run values vars (next s) :=
  evaluate_ask run vars _ h

end

end Routine

namespace Call

/-- The value of a function whose parameters have these values. -/
def evaluate (c : Call) (run : Text → Scripted Variables) (values : List Value) (vars : Variables) :
    Scripted Value :=
  c.routine.evaluate run values vars

/-- `checkExactParamNumber`. -/
def exactly {tries : Bool} {n : ℕ} (requiredParams : ℕ) (routine : Routine tries n) (paramnum : ℕ) :
    Call :=
  if paramnum ≠ requiredParams then .throws "Function requires  parameters" else .plain routine

theorem evaluate_exactly {tries : Bool} {n : ℕ} (requiredParams : ℕ) (routine : Routine tries n)
    (run : Text → Scripted Variables) (values : List Value) (vars : Variables) :
    (exactly requiredParams routine requiredParams).evaluate run values vars
      = routine.evaluate run values vars := by
  rw [exactly, if_neg (not_not.mpr rfl)]
  rfl

end Call

/-! ## The machine -/

namespace Machine

variable (S : Setting)

/-- The machine comes from one state to another. -/
def Leads (m m' : Machine) : Prop := ∃ j, (step S)^[j] m = m'

variable {S}

theorem Leads.refl (m : Machine) : Leads S m m := ⟨0, rfl⟩

theorem Leads.trans {m m' m'' : Machine} (h : Leads S m m') (h' : Leads S m' m'') : Leads S m m'' := by
  obtain ⟨i, rfl⟩ := h
  obtain ⟨j, rfl⟩ := h'
  exact ⟨j + i, Function.iterate_add_apply _ _ _ _⟩

theorem Leads.step {m m' : Machine} (h : Leads S (step S m) m') : Leads S m m' :=
  Leads.trans ⟨1, rfl⟩ h

variable (S)

/-- The machine reaches a state that comes back to these frames with an outcome, or one of its limits
stops it. The variables are as before. -/
def Returns (vars : Variables) (k : Frames .value) (result : Scripted Value) (m : Machine) : Prop :=
  ∃ m' : Machine, m'.vars = vars ∧
    (Leads S m (m'.returnValue result k) ∨ ∃ what, Leads S m (m'.throwExecution what k))

/-- An expression with a value that does not depend on the state. -/
def Evaluates (e : Expression) (v : Value) : Prop :=
  ∀ (m : Machine) (k : Frames .value), Returns S m.vars k (.ok v) (m.goto (.eval e k))

variable {S}

/-- An exception that leaves a parameter leaves the function. -/
theorem step_throw_parameter (m : Machine) (what : String) (params : List Expression) {tries : Bool}
    {n : ℕ} (next : Value → Routine tries n) (k : Frames .value) :
    Leads S (m.throwExecution what (.parameter params next k)) (m.throwExecution what k) := ⟨1, rfl⟩

/-- **The machine computes the value of a function** from the values of its parameters, unless it is
stopped by its limits. -/
theorem routine_evaluate {params : List Expression} {values : List Value}
    (hparams : List.Forall₂ (Evaluates S) params values) (run : Text → Scripted Variables)
    {tries : Bool} {n : ℕ} (r : Routine tries n) (hplain : r.Plain) (m : Machine) (k : Frames .value) :
    Returns S m.vars k (r.evaluate run values m.vars) (m.goto (.routine params r k)) := by
  induction r generalizing m with
  | answer result =>
    rw [Routine.evaluate_answer]
    cases h : result m.vars with
    | ok v =>
      refine ⟨m.decrementStackDepth, rfl, .inl ⟨1, ?_⟩⟩
      simp only [Function.iterate_one, step, perform, goto, h]
      rfl
    | error e =>
      refine ⟨m, rfl, .inl ⟨1, ?_⟩⟩
      simp only [Function.iterate_one, step, perform, goto, h]
      cases e <;> rfl
  | ask zParamNum next ih =>
    rw [Routine.evaluate]
    by_cases hlt : zParamNum < values.length
    · have hlt' : zParamNum < params.length := hparams.length_eq ▸ hlt
      rw [List.getElem?_eq_getElem hlt]
      have hvalue : Evaluates S params[zParamNum] values[zParamNum] := hparams.get hlt' hlt
      -- one step to the parameter, and one back with its value
      have hstep : step S (m.goto (.routine params (.ask zParamNum next) k))
          = m.goto (.eval params[zParamNum] (.parameter params next k)) := by
        simp only [step, perform, goto, List.getElem?_eq_getElem hlt']
      obtain ⟨m', hvars, hback | ⟨what, hback⟩⟩ := hvalue m (.parameter params next k)
      · have hnext := ih values[zParamNum] (hplain _) m'
        rw [hvars] at hnext
        obtain ⟨m'', hvars', hend⟩ := hnext
        have hpath : Leads S (m.goto (.routine params (.ask zParamNum next) k))
            (m'.goto (.routine params (next values[zParamNum]) k)) :=
          Leads.step (hstep ▸ hback.trans (Leads.step (Leads.refl _)))
        exact ⟨m'', hvars', hend.imp hpath.trans fun ⟨what, h⟩ => ⟨what, hpath.trans h⟩⟩
      · exact ⟨m', hvars, .inr ⟨what, Leads.step (hstep ▸ hback.trans (step_throw_parameter ..))⟩⟩
    · have hlt' : ¬ zParamNum < params.length := hparams.length_eq ▸ hlt
      rw [List.getElem?_eq_none (by omega)]
      refine ⟨m, rfl, .inl ⟨1, ?_⟩⟩
      simp only [Function.iterate_one, step, perform, goto,
        List.getElem?_eq_none (by omega : params.length ≤ zParamNum)]
      rfl
  | attempt _ _ _ _ => exact absurd hplain (by rw [Routine.Plain]; exact not_false)
  | execute _ _ => exact absurd hplain (by rw [Routine.Plain]; exact not_false)

end Machine

end Minima.Kissvm
