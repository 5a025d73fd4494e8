import Minima.Kissvm.StatementParser
import Minima.Objects.Witness

/-! # `MinimaFunction::runFunction`

A function reaches back into the interpreter: it has its parameters evaluated, and `FUNCTION` runs a
text. What it does between two such calls is a computation of its own. A `Routine` says what it calls,
and how often at most.

`PROOF`, `CHECKSIG` and `FUNCTION` are the functions that count instructions of their own, run a text
or catch an exception. They are written out here. The other functions evaluate each of their
parameters once at most and compute a value from them; they are a parameter, like the operators and
the signature scheme.

* **`Routine`** — a function as the interpreter sees it.
* **`Library.call`** — the routine of every function. -/

namespace Minima.Kissvm

/-- `mVariables`. -/
abbrev Variables := Text → Option Value

/-- What a function does with the contract. The number bounds how often it calls back; the flag says
whether it may yet catch an exception. -/
inductive Routine : Bool → ℕ → Type where
  /-- The value of the function, from the parameters seen so far and the variables. -/
  | answer {tries : Bool} {n : ℕ} (result : Variables → Scripted Value) : Routine tries n
  /-- Evaluate a parameter. -/
  | ask {tries : Bool} {n : ℕ} (zParamNum : ℕ) (next : Value → Routine tries n) : Routine tries (n + 1)
  /-- Evaluate a parameter, and go on with `otherwise` if an `ExecutionException` comes of it or a
  value that is not accepted. -/
  | attempt {n : ℕ} (zParamNum : ℕ) (accepts : Value → Bool) (next : Value → Routine false n)
      (otherwise : Routine false n) : Routine true (n + 1)
  /-- Run a text. -/
  | execute {n : ℕ} (script : Text) (next : Routine false n) : Routine false (n + 1)

namespace Routine

/-- Throw an `ExecutionException`. -/
def throwExecution {tries : Bool} {n : ℕ} (what : String) : Routine tries n :=
  answer fun _ => .error (.execution what)

/-- `getHexParam`. -/
def getHexParam {tries : Bool} {n : ℕ} (zParamNumber : ℕ) (next : MiniData → Routine tries n) :
    Routine tries (n + 1) :=
  ask zParamNumber fun
    | .hex d => next d
    | _ => throwExecution "Incorrect Parameter type - should be HEXValue @ "

/-- `getNumberParam`. -/
def getNumberParam {tries : Bool} {n : ℕ} (zParamNumber : ℕ) (next : MiniNumber → Routine tries n) :
    Routine tries (n + 1) :=
  ask zParamNumber fun
    | .number x => next x
    | _ => throwExecution "Incorrect Parameter type - should be NumberValue @ "

/-- `getStringParam`. -/
def getStringParam {tries : Bool} {n : ℕ} (zParamNumber : ℕ) (next : Text → Routine tries n) :
    Routine tries (n + 1) :=
  ask zParamNumber fun
    | .script text => next text
    | _ => throwExecution "Incorrect Parameter type - should be ScriptValue @ "

end Routine

/-- The parts of the node that scripts compute with. None of them counts instructions. -/
structure Library where
  crypto : Crypto
  /-- `TreeKey::verify` for a public key, data and the bytes of a signature. -/
  verify : MiniData → MiniData → MiniData → Scripted Bool
  /-- `REPLACE::safeReplaceAll`. -/
  safeReplaceAll : Text → Text → Text → Scripted Text
  /-- What an `OperatorExpression` makes of its sides. -/
  applyOperator : OperatorType → Value → Option Value → Scripted Value
  /-- How often another function calls back when it has so many parameters. -/
  asks : MinimaFunction → ℕ → ℕ
  /-- `runFunction` of the other functions. -/
  runFunction : (f : MinimaFunction) → (paramnum : ℕ) → Routine false (asks f paramnum)

/-- `runFunction` of a function: the instructions it counts before all else, and what it does then. -/
structure Call where
  increments : ℕ
  increments_le : increments ≤ 31
  tries : Bool
  asks : ℕ
  routine : Routine tries asks

namespace Call

/-- A function that counts no instructions of its own. -/
def plain {tries : Bool} {n : ℕ} (routine : Routine tries n) : Call :=
  ⟨0, Nat.zero_le _, tries, n, routine⟩

/-- A function that throws an `ExecutionException` at once. -/
def throws (what : String) : Call := plain (Routine.throwExecution what : Routine false 0)

end Call

namespace Library

variable (L : Library)

/-! ## `PROOF` -/

/-- The last part of `PROOF`: the root of the proof against the one in the parameters. -/
def checkRoot (mmrdata : MMRData) (roothex : MiniData) (rootsum : MiniNumber) (chain : MiniData) :
    Scripted Value := do
  let mmrroot ← ofResult (MMRData.make roothex rootsum)
  match (MMRProof.readDataStream chain.bytes).1 with
  | .error (.undefined what) => .error (.undefined what)
  | .error (.exception _) => .error (.execution "Invalid MMRProof at PROOF ")
  | .ok proof =>
    let root ← ofResult (proof.calculateProof L.crypto mmrdata)
    return .boolean (root.isEqual mmrroot)

/-- The parameters of `PROOF` behind the leaf. -/
def proofRoot {n : ℕ} (leaf : Result MMRData) : Routine false (n + 3) :=
  match ofResult leaf with
  | .error e => .answer fun _ => .error e
  | .ok mmrdata =>
    .getHexParam 2 fun roothex => .getNumberParam 3 fun rootsum => .getHexParam 4 fun chain =>
      .answer fun _ => L.checkRoot mmrdata roothex rootsum chain

/-- The leaf of `PROOF`, from the bytes that are hashed. -/
def proofLeaf (data : List Byte) (sumval : MiniNumber) : Result MMRData :=
  MMRData.createMMRDataLeafNode L.crypto (.ok data) sumval

/-- `PROOF::runFunction`. The first parameter is evaluated as a byte string, and if an
`ExecutionException` comes of that, once more as a text. -/
def proof (paramnum : ℕ) : Call :=
  if paramnum ≠ 5 then .throws "Function requires  parameters"
  else .plain <| show Routine true 6 from
    .getNumberParam 1 fun sumval =>
      .attempt 0 (fun hex => hex.getValueType = .hex)
        (fun
          | .hex md => L.proofRoot (L.proofLeaf md.writeDataStream sumval)
          | _ => .throwExecution "Incorrect Parameter type - should be HEXValue @ ")
        (.getStringParam 0 fun ms =>
          L.proofRoot (L.proofLeaf (MiniData.mk ms).writeDataStream sumval))

/-! ## `CHECKSIG` -/

/-- `CHECKSIG::runFunction`. -/
def checksig (paramnum : ℕ) : Call :=
  if paramnum ≠ 3 then .throws "Function requires  parameters"
  else
    ⟨31, le_rfl, false, 3,
      .getHexParam 0 fun pubk => .getHexParam 1 fun data => .getHexParam 2 fun sig =>
        .answer fun _ =>
          if pubk.getLength = 0 ∨ sig.getLength = 0 then
            .error (.execution "Invalid ZERO length params for CHECKSIG")
          else .boolean <$> L.verify pubk data sig⟩

/-! ## `FUNCTION` -/

/-- `FUNCTION_RETURN`. -/
def functionReturn : Text := MiniNumber.ascii "returnvalue"

/-- The stretches of other characters than `$` in a text; the flag says whether one has begun. -/
def countSegments : Bool → Text → ℕ
  | _, [] => 0
  | inSegment, c :: cs =>
    if c = 36 then countSegments false cs
    else (if inSegment then 0 else 1) + countSegments true cs

/-- The check that `tokenizerCountTokensMinusOne` is at most 64. -/
def tooManyReplacements (s : Text) : Bool := 65 < countSegments false s

/-- The text of a parameter, as it is put into the function. -/
def parameterText : Value → Text
  | .script text => 91 :: text ++ [93]
  | paramval => paramval.toText

/-- The value of a `FUNCTION` behind its run. -/
def returnValue (vars : Variables) : Scripted Value :=
  match vars functionReturn with
  | none => .ok (.boolean true)
  | some ret => Value.getValue ret.toText

/-- The loop over the parameters of `FUNCTION`: `left` more from parameter `i` on. -/
def replaceParameters : (left : ℕ) → ℕ → Text → Routine false (left + 1)
  | 0, _, finalfunction => .execute finalfunction (.answer returnValue)
  | left + 1, i, finalfunction =>
    .ask i fun paramval =>
      match L.safeReplaceAll finalfunction (36 :: MiniNumber.digitsText i) (parameterText paramval) with
      | .error e => .answer fun _ => .error e
      | .ok finalfunction =>
        if tooManyReplacements finalfunction then
          .throwExecution "Too many replacements in FUNCTION, max 64"
        else replaceParameters left (i + 1) finalfunction

/-- `FUNCTION::runFunction`. -/
def function (paramnum : ℕ) : Call :=
  match paramnum with
  | 0 => .throws "Function requires minimum of "
  | left + 1 => .plain <| show Routine false (left + 2) from
    .getStringParam 0 fun finalfunction =>
      if tooManyReplacements finalfunction then
        .throwExecution "Too many replacements in FUNCTION, max 64"
      else L.replaceParameters left 1 finalfunction

/-- `runFunction` of any function with so many parameters. -/
def call (f : MinimaFunction) (paramnum : ℕ) : Call :=
  match f with
  | .proof => L.proof paramnum
  | .checksig => L.checksig paramnum
  | .function => L.function paramnum
  | f => .plain (L.runFunction f paramnum)

end Library

end Minima.Kissvm
