import Minima.Lib.Metered
import Minima.Objects.Transaction
import Minima.Objects.Witness

/-! # `Contract`: a script, its globals and its limit

A `Contract` runs a parsed script. The script reaches its surroundings through the contract: every
statement and expression counts as instructions, and the globals are read with `getGlobal`, which
remembers whether one of them changes from block to block.

The statements and expressions are not modelled one by one. A parsed script is any computation that
counts instructions and reads globals (`Script`); everything else it can see (keys, witness,
transaction, previous state) is fixed when it is parsed.

* **`Contract.setGlobals`**, **`Contract.getGlobal`** — the globals of an input.
* **`Contract.run`** — success and `isMonotonic` of a run under `setMaxInstructions`. -/

namespace Minima

namespace Token

/-- `getScaledTokenAmount`: the amount times ten, as often as the scale says. -/
def getScaledTokenAmount (t : Token) (zMinimaAmount : MiniNumber) : Result MiniNumber :=
  (List.range t.tokenScale.val.getAsInt.toNat).foldlM (fun current _ => current.mult (.ofInt 10))
    zMinimaAmount

end Token

namespace Contract

/-- The values that globals have. -/
inductive Value where
  | number (x : MiniNumber)
  | hex (d : MiniData)
  | string (s : Text)
  deriving DecidableEq

/-- What a parsed script does, up to the value of `isSuccess` in the end: an exception leaves that
`false`, and so does a script that never returns. It counts instructions (`spend`) and reads globals
(`ask`, with nothing for a global that is not there). A script that would go on beyond every `int`
limit ends there without success. -/
abbrev Script := Metered Text (Option Value) Bool

/-- `mGlobals`. -/
abbrev Globals := List (Text × Value)

/-- What `Contract::Contract` makes of a script text: `parse script keys witness transaction
prevState`. A text that does not parse becomes the script that is done without success. -/
abbrev Parser := Text → List MiniData → Witness → Transaction → List StateVariable → Script

/-! ## The globals -/

/-- The globals that come from the input and its transaction. -/
def inputGlobals (zTrx : Transaction) (zInput : ℕ) (zInputBlkCreate : MiniNumber) (zScript : Text)
    (cc : Coin) : Result Globals := do
  -- the amount of Minima, or of the token
  let amt ←
    if cc.tokenID.isEqual Token.TOKENID_MINIMA then pure cc.amount.val
    else match cc.token with
      | some tok => tok.getScaledTokenAmount cc.amount.val
      | none => pure cc.amount.val
  let amt ← amt.copy
  return [
    (MiniNumber.ascii "@CREATED", .number zInputBlkCreate),
    (MiniNumber.ascii "@INPUT", .number (.ofInt zInput)),
    (MiniNumber.ascii "@COINID", .hex cc.coinID),
    (MiniNumber.ascii "@AMOUNT", .number amt),
    (MiniNumber.ascii "@ADDRESS", .hex cc.address),
    (MiniNumber.ascii "@TOKENID", .hex cc.tokenID),
    (MiniNumber.ascii "@SCRIPT", .string zScript),
    (MiniNumber.ascii "@TOTIN", .number (.ofInt zTrx.inputs.length)),
    (MiniNumber.ascii "@TOTOUT", .number (.ofInt zTrx.outputs.length))]

/-- The age of a coin at a block, as `@COINAGE` holds it. -/
def coinAge (zBlock zInputBlkCreate : MiniNumber) : Result MiniNumber := do
  let age ← zBlock.sub zInputBlkCreate
  age.copy

/-- The globals that change from block to block, in front of the others. -/
def withBlock (zBlock zBlockTimeMilli : MiniNumber) (age : Option MiniNumber) (globals : Globals) :
    Globals :=
  (MiniNumber.ascii "@BLOCK", .number zBlock) ::
    (MiniNumber.ascii "@BLOCKMILLI", .number zBlockTimeMilli) ::
      ((age.map fun a => (MiniNumber.ascii "@COINAGE", .number a)).toList ++ globals)

/-- `setGlobals`. -/
def setGlobals (zBlock zBlockTimeMilli : MiniNumber) (zTrx : Transaction) (zInput : ℕ)
    (zInputBlkCreate : MiniNumber) (zScript : Text) : Result Globals :=
  match zTrx.inputs[zInput]? with
  | none => throwException "Invalid input index in setGlobals"
  | some cc => do
    let age ← coinAge zBlock zInputBlkCreate
    let globals ← inputGlobals zTrx zInput zInputBlkCreate zScript cc
    return withBlock zBlock zBlockTimeMilli (some age) globals

/-- `getGlobal`: nothing where the source throws. -/
def getGlobal (globals : Globals) (zGlobal : Text) : Option Value := globals.lookup zGlobal

/-- The globals whose reading ends `isMonotonic`. -/
def changesWithBlock (zGlobal : Text) : Bool :=
  zGlobal = MiniNumber.ascii "@BLOCK" || zGlobal = MiniNumber.ascii "@BLOCKMILLI" ||
    zGlobal = MiniNumber.ascii "@COINAGE"

/-! ## Running -/

/-- `run` under a limit: `isSuccess` and `isMonotonic` afterwards. -/
def run (zMax : ℤ) (globals : Globals) (script : Script) : Bool × Bool :=
  let (success, asked) := script.run (getGlobal globals) zMax 0
  (success.getD false,
    asked.all fun zGlobal => !((getGlobal globals zGlobal).isSome && changesWithBlock zGlobal))

theorem run_fst (zMax : ℤ) (globals : Globals) (script : Script) :
    (run zMax globals script).1 = (script.run (getGlobal globals) zMax 0).1.getD false := rfl

/-- A monotonic run met no global that changes with the block. -/
theorem not_changesWithBlock_of_run {zMax : ℤ} {zBlock time age : MiniNumber} {rest : Globals}
    {script : Script}
    (hmono : (run zMax (withBlock zBlock time (some age) rest) script).2 = true)
    (hfits : script.Fits (getGlobal (withBlock zBlock time (some age) rest)) zMax 0) :
    ∀ q ∈ script.asked (getGlobal (withBlock zBlock time (some age) rest)), changesWithBlock q = false := by
  intro q hq
  simp only [run, Metered.run_of_fits _ hfits, List.all_eq_true] at hmono
  have h := hmono q hq
  rw [Bool.not_eq_true', Bool.and_eq_false_iff] at h
  rcases h with hnone | hq
  · -- a global that is not there is none of the three
    by_contra hchanges
    rw [Bool.not_eq_false] at hchanges
    have hsome : (getGlobal (withBlock zBlock time (some age) rest) q).isSome = true := by
      simp only [changesWithBlock, Bool.or_eq_true, decide_eq_true_eq] at hchanges
      rcases hchanges with (rfl | rfl) | rfl <;>
        simp [getGlobal, withBlock, List.lookup_cons, MiniNumber.ascii]
    rw [hsome] at hnone
    cases hnone
  · exact hq

/-- The other globals do not depend on the block. -/
theorem getGlobal_withBlock {q : Text} (h : changesWithBlock q = false) (zBlock time : MiniNumber)
    (age : Option MiniNumber) (rest : Globals) :
    getGlobal (withBlock zBlock time age rest) q = getGlobal rest q := by
  simp only [changesWithBlock, Bool.or_eq_false_iff, decide_eq_false_iff_not] at h
  obtain ⟨⟨hblock, hmilli⟩, hage⟩ := h
  have hcons : ∀ (name : Text) (v : Value) (gs : Globals), q ≠ name →
      getGlobal ((name, v) :: gs) q = getGlobal gs q := by
    intro name v gs hne
    rw [getGlobal, List.lookup_cons, beq_false_of_ne hne]
    rfl
  rw [withBlock, hcons _ _ _ hblock, hcons _ _ _ hmilli]
  cases age with
  | none => rfl
  | some a => exact hcons _ _ _ hage

end Contract

end Minima
