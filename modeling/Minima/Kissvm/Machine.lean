import Minima.Kissvm.Functions

/-! # The run of a script

Statements and expressions call each other while a script runs, and run further scripts they have
made. The calls that are under way are a continuation: a stack of frames, each with what its call still
has to do. One step of the machine is what happens between two calls.

A frame waits for the value of an expression, the end of a statement or the end of a block, and the
stack is typed by it, so that nothing can return to the wrong place.

* **`Machine.step`** — one step.
* **`Contract.start`** — a script, parsed and about to run. -/

namespace Minima.Kissvm

/-- An exception on its way to a handler. Only `ExecutionException` is told apart. -/
inductive Thrown where
  | execution (what : String)
  | other (what : String)
  deriving DecidableEq

namespace Thrown

/-- The `ExecutionException` that a handler for all exceptions throws instead. -/
def toExecution : Thrown → Thrown
  | execution what => execution what
  | other what => execution what

end Thrown

/-- What a frame waits for. -/
inductive Expects where
  | value | statement | block

/-- The calls that are under way, innermost first. -/
inductive Frames : Expects → Type where
  /-- `Contract::run`. -/
  | finish : Frames .block
  /-- The loop of `StatementBlock::run`. -/
  | statements (rest : List Statement) (k : Frames .block) : Frames .statement
  | letVariable (zName : Text) (k : Frames .statement) : Frames .value
  /-- A position of an array, with the text of the ones before it. -/
  | letPosition (pos : Text) (rest : List Expression) (zExpression : Expression)
      (k : Frames .statement) : Frames .value
  | assert (k : Frames .statement) : Frames .value
  | returns (k : Frames .statement) : Frames .value
  | exec (k : Frames .statement) : Frames .value
  | mast (k : Frames .statement) : Frames .value
  /-- A condition of `IF` with its action and the branches behind. -/
  | branch (action : List Statement) (rest : List (Expression × List Statement))
      (k : Frames .statement) : Frames .value
  | whileCheck (zWhileCheck : Expression) (zCodeBlock : List Statement) (k : Frames .statement) :
      Frames .value
  /-- The action of an `IF`. -/
  | branchEnd (k : Frames .statement) : Frames .block
  /-- The body of a `WHILE`. -/
  | whileBody (zWhileCheck : Expression) (zCodeBlock : List Statement) (k : Frames .statement) :
      Frames .block
  /-- The script of `EXEC` or `MAST`, inside the `try` of the statement. -/
  | scriptEnd (k : Frames .statement) : Frames .block
  /-- The script of a `FUNCTION`, inside its `try`. -/
  | functionEnd {n : ℕ} (params : List Expression) (next : Routine false n) (k : Frames .value) :
      Frames .block
  | booleanRight (zBooleanType : BooleanExpression.BooleanType) (zRight : Expression)
      (k : Frames .value) : Frames .value
  | booleanEnd (zBooleanType : BooleanExpression.BooleanType) (lval : Value) (k : Frames .value) :
      Frames .value
  | operatorRight (zOperator : OperatorType) (zRight : Option Expression) (k : Frames .value) :
      Frames .value
  | operatorEnd (zOperator : OperatorType) (lval : Value) (k : Frames .value) : Frames .value
  /-- A parameter of a function. -/
  | parameter {tries : Bool} {n : ℕ} (params : List Expression) (next : Value → Routine tries n)
      (k : Frames .value) : Frames .value
  /-- A parameter of a function, inside a `try`. -/
  | attempt {n : ℕ} (params : List Expression) (accepts : Value → Bool)
      (next : Value → Routine false n) (otherwise : Routine false n) (k : Frames .value) :
      Frames .value

/-- Where a run is. -/
inductive Control where
  /-- `Expression::getValue` is about to begin. -/
  | eval (e : Expression) (k : Frames .value)
  /-- It has returned. -/
  | value (v : Value) (k : Frames .value)
  /-- Inside `runFunction`. -/
  | routine {tries : Bool} {n : ℕ} (params : List Expression) (r : Routine tries n)
      (k : Frames .value)
  /-- `StatementBlock::run` is about to begin. -/
  | block (stats : List Statement) (k : Frames .block)
  /-- Inside its loop. -/
  | statements (rest : List Statement) (k : Frames .block)
  | blockDone (k : Frames .block)
  | statementDone (k : Frames .statement)
  | throwing (e : Thrown) {x : Expects} (k : Frames x)
  /-- `Contract::run` has returned. -/
  | finished
  /-- Undefined behaviour. -/
  | crashed (what : String)

/-- What does not change during a run. -/
structure Setting where
  library : Library
  /-- `mMaxInstructions`, an `int`. -/
  maxInstructions : ℤ
  /-- `mGlobals`. -/
  globals : Text → Option Value
  witness : Witness

/-- The state of a run: fields of the contract, and where it is. -/
structure Machine where
  /-- `mNumInstructions`, an `int`. -/
  numInstructions : ℤ
  /-- The instructions that passed the check. The contract does not keep this number. -/
  executed : ℕ
  stackDepth : ℕ
  vars : Variables
  success : Bool
  successSet : Bool
  control : Control

namespace Machine

/-! ## The contract's counters -/

/-- The sum of two `int`s, which wraps around as two's complement does. -/
def addInt (a b : ℤ) : ℤ := Int.bmod (a + b) (2 ^ 32)

/-- Go on at another place. -/
def goto (m : Machine) (control : Control) : Machine := { m with control }

/-- Throw an `ExecutionException`. -/
def throwExecution (m : Machine) (what : String) {x : Expects} (k : Frames x) : Machine :=
  m.goto (.throwing (.execution what) k)

/-- A part of the interpreter has failed. -/
def fail (m : Machine) (e : ScriptFault) {x : Expects} (k : Frames x) : Machine :=
  match e with
  | .execution what => m.goto (.throwing (.execution what) k)
  | .parse what => m.goto (.throwing (.other what) k)
  | .standard what => m.goto (.throwing (.other what) k)
  | .undefined what => m.goto (.crashed what)

/-- Return the value of a computation. -/
def returnValue (m : Machine) (result : Scripted Value) (k : Frames .value) : Machine :=
  match result with
  | .ok v => m.goto (.value v k)
  | .error e => m.fail e k

/-- `incrementInstructions`, and what comes behind it. -/
def incrementInstructions (S : Setting) (zNum : ℕ) (m : Machine) {x : Expects} (k : Frames x)
    (next : Machine → Machine) : Machine :=
  let numInstructions := addInt m.numInstructions zNum
  if S.maxInstructions < numInstructions then
    { m with numInstructions }.throwExecution "MAX instruction number reached! " k
  else next { m with numInstructions, executed := m.executed + zNum }

/-- `incrementStackDepth`, and what comes behind it. -/
def incrementStackDepth (m : Machine) {x : Expects} (k : Frames x) (next : Machine → Machine) :
    Machine :=
  if maxStackDepth < m.stackDepth + 1 then
    { m with stackDepth := m.stackDepth + 1 }.throwExecution "Stack depth too deep! (MAX 64) " k
  else next { m with stackDepth := m.stackDepth + 1 }

/-- `decrementStackDepth`: not below zero. -/
def decrementStackDepth (m : Machine) : Machine := { m with stackDepth := m.stackDepth - 1 }

/-- `setVariable`. -/
def setVariable (m : Machine) (zName : Text) (v : Value) : Machine :=
  { m with vars := Function.update m.vars zName (some v) }

/-- `removeVariable`. -/
def removeVariable (m : Machine) (zName : Text) : Machine :=
  { m with vars := Function.update m.vars zName none }

/-- `setRETURNValue`: the first one counts. -/
def setRETURNValue (m : Machine) (zSUCCESS : Bool) : Machine :=
  if m.successSet then m else { m with success := zSUCCESS, successSet := true }

/-! ## Expressions -/

/-- A function behind the instruction it counts as an expression. -/
def callFunction (S : Setting) (f : MinimaFunction) (params : List Expression) (k : Frames .value)
    (m : Machine) : Machine :=
  m.incrementStackDepth k fun m =>
    let call := S.library.call f params.length
    if call.increments = 0 then m.goto (.routine params call.routine k)
    else m.incrementInstructions S call.increments k fun m => m.goto (.routine params call.routine k)

/-- `getValue` behind the instruction it counts. -/
def dispatch (S : Setting) (e : Expression) (k : Frames .value) (m : Machine) : Machine :=
  match e with
  | .constant v => m.goto (.value v k)
  | .global zType =>
    match S.globals zType with
    | some v => m.goto (.value v k)
    | none => m.throwExecution "Global not found - " k
  | .variable zName =>
    match m.vars zName with
    | some v => m.goto (.value v k)
    | none => m.throwExecution "Variable does not exist : " k
  | .boolean zBooleanType zLeft zRight => m.goto (.eval zLeft (.booleanRight zBooleanType zRight k))
  | .operator zOperator zLeft zRight => m.goto (.eval zLeft (.operatorRight zOperator zRight k))
  | .function f params => callFunction S f params k m

/-- The operators with one side. -/
def isUnary (zOperator : OperatorType) : Bool := zOperator = .neg || zOperator = .not

/-- An operator whose left side has a value. The missing right side of a unary one counts as an
instruction. -/
def operate (S : Setting) (zOperator : OperatorType) (zRight : Option Expression) (lval : Value)
    (k : Frames .value) (m : Machine) : Machine :=
  if isUnary zOperator then
    if zRight.isNone then
      m.incrementInstructions S 1 k fun m =>
        m.returnValue (S.library.applyOperator zOperator lval none) k
    else m.returnValue (S.library.applyOperator zOperator lval none) k
  else
    match zRight with
    | none => m.throwExecution " requires right expression" k
    | some right => m.goto (.eval right (.operatorEnd zOperator lval k))

/-- A step of a function. -/
def perform (params : List Expression) {tries : Bool} {n : ℕ} (r : Routine tries n)
    (k : Frames .value) (m : Machine) : Machine :=
  match r with
  | .answer result =>
    match result m.vars with
    | .ok v => m.decrementStackDepth.goto (.value v k)
    | .error e => m.fail e k
  | .ask zParamNum next =>
    match params[zParamNum]? with
    | some e => m.goto (.eval e (.parameter params next k))
    | none => m.throwExecution "Parameter missing for " k
  | .attempt zParamNum accepts next otherwise =>
    match params[zParamNum]? with
    | some e => m.goto (.eval e (.attempt params accepts next otherwise k))
    | none => m.throwExecution "Parameter missing for " (.attempt params accepts next otherwise k)
  | .execute script next =>
    let m := m.removeVariable Library.functionReturn
    match StatementParser.parseScript script m.stackDepth with
    | .ok stats => m.goto (.block stats (.functionEnd params next k))
    | .error e => m.fail e (.functionEnd params next k)

/-! ## Statements -/

/-- `IFstatement::execute` from a branch on. -/
def tryBranches (branches : List (Expression × List Statement)) (k : Frames .statement)
    (m : Machine) : Machine :=
  match branches with
  | [] => m.goto (.statementDone k)
  | (condition, action) :: rest => m.goto (.eval condition (.branch action rest k))

/-- `execute`. -/
def execute (s : Statement) (k : Frames .statement) (m : Machine) : Machine :=
  match s with
  | .letVariable zName e => m.goto (.eval e (.letVariable zName k))
  | .letArray [] e => m.goto (.eval e (.letVariable [] k))
  | .letArray (p :: ps) e => m.goto (.eval p (.letPosition [] ps e k))
  | .exec e => m.goto (.eval e (.exec k))
  | .mast e => m.goto (.eval e (.mast k))
  | .ifs branches => tryBranches branches k m
  | .whiles e stats => m.goto (.eval e (.whileCheck e stats k))
  | .assert e => m.goto (.eval e (.assert k))
  | .returns e => m.goto (.eval e (.returns k))

/-- The script of `EXEC` or `MAST`. -/
def runScript (script : Text) (k : Frames .statement) (m : Machine) : Machine :=
  match StatementParser.parseScript script m.stackDepth with
  | .ok stats => m.goto (.block stats (.scriptEnd k))
  | .error e => m.fail e (.scriptEnd k)

/-- `trim_copy`. -/
def trim (s : Text) : Text :=
  ((s.dropWhile MiniNumber.isSpace).reverse.dropWhile MiniNumber.isSpace).reverse

/-- A statement that needs a boolean. -/
def withBoolean (v : Value) (k : Frames .statement) (next : Bool → Machine) (m : Machine) : Machine :=
  match v.isTrue? with
  | some b => next b
  | none => m.throwExecution " MUST use a BOOLEAN expression : " k

/-- A value goes to the innermost frame. -/
def receive (S : Setting) (v : Value) (k : Frames .value) (m : Machine) : Machine :=
  match k with
  | .letVariable zName k => (m.setVariable zName v).goto (.statementDone k)
  | .letPosition pos rest e k =>
    if v.getValueType ≠ .number then
      m.throwExecution "Incorrect Parameter type for LET - MUST be a NumberValue @ " k
    else
      let pos := pos ++ trim v.toText ++ [44]
      match rest with
      | [] => m.goto (.eval e (.letVariable pos k))
      | p :: ps => m.goto (.eval p (.letPosition pos ps e k))
  | .assert k => m.withBoolean v k fun b =>
      (if b then m else m.setRETURNValue false).goto (.statementDone k)
  | .returns k => m.withBoolean v k fun b => (m.setRETURNValue b).goto (.statementDone k)
  | .exec k =>
    match v with
    | .script script => runScript script k m
    | _ => m.throwExecution "EXEC requires a STRING expression" k
  | .mast k =>
    match v with
    | .hex d =>
      match S.witness.getScript d with
      | some scrpr => runScript scrpr.script k m
      | none => m.throwExecution "No script found for MAST " k
    | _ => m.throwExecution "MAST requires HEX value expression" k
  | .branch action rest k => m.withBoolean v k fun b =>
      if b then m.goto (.block action (.branchEnd k)) else tryBranches rest k m
  | .whileCheck e stats k => m.withBoolean v k fun b =>
      if b then m.goto (.block stats (.whileBody e stats k)) else m.goto (.statementDone k)
  | .booleanRight zBooleanType zRight k => m.goto (.eval zRight (.booleanEnd zBooleanType v k))
  | .booleanEnd zBooleanType lval k => m.returnValue (BooleanExpression.apply zBooleanType lval v) k
  | .operatorRight zOperator zRight k => operate S zOperator zRight v k m
  | .operatorEnd zOperator lval k =>
    m.returnValue (S.library.applyOperator zOperator lval (some v)) k
  | .parameter params next k => m.goto (.routine params (next v) k)
  | .attempt params accepts next otherwise k =>
    m.goto (.routine params (if accepts v then next v else otherwise) k)

/-- A block ends. `WHILE` begins its next turn, with the instruction that its check counts. -/
def leaveBlock (S : Setting) (k : Frames .block) (m : Machine) : Machine :=
  match k with
  | .finish => m.goto .finished
  | .branchEnd k => m.goto (.statementDone k)
  | .whileBody e stats k =>
    if m.successSet then m.goto (.statementDone k)
    else m.incrementInstructions S 1 k (dispatch S e (.whileCheck e stats k))
  | .scriptEnd k => m.goto (.statementDone k)
  | .functionEnd params next k => m.goto (.routine params next k)

/-- The loop of `StatementBlock::run`. It ends early, and without `decrementStackDepth`, once a
return value is set. -/
def nextStatement (S : Setting) (rest : List Statement) (k : Frames .block) (m : Machine) : Machine :=
  match rest with
  | [] => m.decrementStackDepth.goto (.blockDone k)
  | s :: rest =>
    if m.successSet then m.goto (.blockDone k)
    else m.incrementInstructions S 1 k (execute s (.statements rest k))

/-! ## Exceptions -/

/-- An exception leaves the innermost call. `EXEC`, `MAST` and `FUNCTION` throw an
`ExecutionException` instead of it, and `Contract::run` takes it for a failure. -/
def unwind (e : Thrown) {x : Expects} (k : Frames x) (m : Machine) : Machine :=
  match k with
  | .finish => { m with success := false, successSet := true, control := .finished }
  | .exec k => m.goto (.throwing e.toExecution k)
  | .scriptEnd k => m.goto (.throwing e.toExecution k)
  | .functionEnd _ _ k => m.goto (.throwing e.toExecution k)
  | .attempt params _ _ otherwise k =>
    match e with
    | .execution _ => m.goto (.routine params otherwise k)
    | .other _ => m.goto (.throwing e k)
  | .statements _ k => m.goto (.throwing e k)
  | .letVariable _ k => m.goto (.throwing e k)
  | .letPosition _ _ _ k => m.goto (.throwing e k)
  | .assert k => m.goto (.throwing e k)
  | .returns k => m.goto (.throwing e k)
  | .mast k => m.goto (.throwing e k)
  | .branch _ _ k => m.goto (.throwing e k)
  | .whileCheck _ _ k => m.goto (.throwing e k)
  | .branchEnd k => m.goto (.throwing e k)
  | .whileBody _ _ k => m.goto (.throwing e k)
  | .booleanRight _ _ k => m.goto (.throwing e k)
  | .booleanEnd _ _ k => m.goto (.throwing e k)
  | .operatorRight _ _ k => m.goto (.throwing e k)
  | .operatorEnd _ _ k => m.goto (.throwing e k)
  | .parameter _ _ k => m.goto (.throwing e k)

/-! ## Steps -/

/-- One step of a run. A run that has ended stays where it is. -/
def step (S : Setting) (m : Machine) : Machine :=
  match m.control with
  | .eval e k => m.incrementInstructions S 1 k (dispatch S e k)
  | .value v k => receive S v k m
  | .routine params r k => perform params r k m
  | .block stats k => m.incrementStackDepth k fun m => m.goto (.statements stats k)
  | .statements rest k => nextStatement S rest k m
  | .blockDone k => leaveBlock S k m
  | .statementDone (.statements rest k) => m.goto (.statements rest k)
  | .throwing e k => unwind e k m
  | .finished => m
  | .crashed _ => m

/-- The run is over. -/
def isEnded (m : Machine) : Bool :=
  match m.control with
  | .finished => true
  | .crashed _ => true
  | _ => false

end Machine

namespace Contract

/-- A contract after its constructor has parsed the script, at the beginning of `run`. A script that
does not parse is not run. -/
def start (zRamScript : Text) : Machine :=
  { numInstructions := 0
    executed := 0
    stackDepth := 0
    vars := fun _ => none
    success := false
    successSet := false
    control :=
      match StatementParser.parseScript zRamScript 0 with
      | .ok stats => .block stats .finish
      | .error (.undefined what) => .crashed what
      | .error _ => .finished }

/-- The contract after a number of steps. -/
def runFor (S : Setting) (zRamScript : Text) (k : ℕ) : Machine := (Machine.step S)^[k] (start zRamScript)

end Contract

end Minima.Kissvm
