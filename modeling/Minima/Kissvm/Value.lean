import Minima.Base.NumberText

/-! # The values of a script

A value is a boolean, a byte string, a number or a text. Values are written in scripts and in state
variables, and `Value.getValue` reads them back from that text. A run can fail with the exceptions of
the interpreter, which the statements tell apart, or with undefined behaviour.

* **`Value.getValue`** — the value a text spells.
* **`BooleanExpression.apply`** — what the boolean operators make of two values. -/

namespace Minima.Kissvm

/-! ## Failures -/

/-- How a script can fail. The three classes of exceptions are caught in different places. -/
inductive ScriptFault where
  /-- An `ExecutionException`. -/
  | execution (what : String)
  /-- A `MinimaParseException`. -/
  | parse (what : String)
  /-- Another `std::exception`. -/
  | standard (what : String)
  /-- Undefined behaviour: no handler sees it. -/
  | undefined (what : String)
  deriving DecidableEq, Repr

/-- The outcome of a part of the interpreter. -/
abbrev Scripted (α : Type) := Except ScriptFault α

/-- A call of the node made by a script: what it throws is none of the interpreter's own classes. -/
def ofResult {α : Type} : Result α → Scripted α
  | .ok a => .ok a
  | .error (.exception what) => .error (.standard what)
  | .error (.undefined what) => .error (.undefined what)

/-! ## Values -/

/-- `Value` with its four subclasses. -/
inductive Value where
  | boolean (b : Bool)
  | hex (data : MiniData)
  | number (x : MiniNumber)
  | script (text : Text)
  deriving DecidableEq

/-- What `getValueType` returns. -/
inductive ValueType where
  | hex | number | script | boolean
  deriving DecidableEq

namespace Value

/-- `Contract::MAX_DATA_SIZE`. -/
def maxDataSize : ℕ := 64 * 1024

/-- `getValueType`. -/
def getValueType : Value → ValueType
  | boolean _ => .boolean
  | hex _ => .hex
  | number _ => .number
  | script _ => .script

/-- The constructor of `HexValue`. -/
def hexValue (d : MiniData) : Scripted Value :=
  if maxDataSize < d.getLength then .error (.standard "MAX HEX value size reached")
  else .ok (hex d)

/-- The constructor of `StringValue`. -/
def stringValue (zScript : Text) : Scripted Value :=
  if maxDataSize < zScript.length then .error (.standard "MAX String length reached")
  else .ok (script zScript)

/-- `ScriptTokenizer::isNumeric`: digits, and a point with further digits behind it or nothing. -/
def isNumeric (zWord : Text) : Bool :=
  !(zWord.takeWhile MiniNumber.isDigit).isEmpty &&
    match zWord.dropWhile MiniNumber.isDigit with
    | [] => true
    | c :: frac => c == 46 && !frac.isEmpty && frac.all MiniNumber.isDigit

/-- `[ … ]` in square brackets. -/
def isBracketed (zValue : Text) : Bool :=
  zValue.head? == some 91 && 2 ≤ zValue.length && zValue.getLast? == some 93

/-- `getValue`: the value that a text spells. A minus sign in front makes it a number, whatever
follows. -/
def getValue (zValue : Text) : Scripted Value :=
  if isBracketed zValue then stringValue (zValue.drop 1).dropLast
  else if (MiniNumber.ascii "0x").isPrefixOf zValue then do
    let d ← ofResult (MiniData.ofHex zValue)
    hexValue d
  else if zValue = MiniNumber.ascii "TRUE" then .ok (boolean true)
  else if zValue = MiniNumber.ascii "FALSE" then .ok (boolean false)
  else if zValue.head? == some 45 || isNumeric zValue then
    number <$> ofResult (MiniNumber.ofText zValue)
  else .error (.standard "Invalid value : ")

/-- `toString`. -/
def toText : Value → Text
  | boolean b => MiniNumber.ascii (if b then "TRUE" else "FALSE")
  | hex d => d.to0xString
  | number x => x.toText
  | script text => text

/-- `checkSameType` of two values. -/
def checkSameType (zV1 zV2 : Value) : Scripted Unit :=
  if zV1.getValueType = zV2.getValueType then .ok ()
  else .error (.standard "Operation requires that both value types MUST be the same")

/-- `isTrue` of a boolean; nothing for the values that are none. -/
def isTrue? : Value → Option Bool
  | boolean b => some b
  | _ => none

end Value

/-! ## Boolean operators -/

namespace BooleanExpression

/-- The types of a `BooleanExpression`. -/
inductive BooleanType where
  | and | nand | or | nor | xor | nxor
  | eq | neq | lt | lte | gt | gte
  | not
  deriving DecidableEq

/-- The operators on booleans alone. -/
def logical (f : Bool → Bool → Bool) : Value → Value → Scripted Value
  | .boolean left, .boolean right => .ok (.boolean (f left right))
  | _, _ => .error (.standard "Incorrect value type, expected BOOLEAN")

/-- The operators on numbers alone. -/
def compared (f : MiniNumber → MiniNumber → Bool) : Value → Value → Scripted Value
  | .number left, .number right => .ok (.boolean (f left right))
  | _, _ => .error (.standard "Incorrect value type, expected NUMBER")

/-- `isEqual` of two values of one type. -/
def isEqual : Value → Value → Bool
  | .boolean left, .boolean right => left == right
  | .hex left, .hex right => left.isEqual right
  | .number left, .number right => left.isEqual right
  | .script left, .script right => left == right
  | _, _ => false

/-- The `switch` over the types, both sides being of one type. -/
def applyTyped : BooleanType → Value → Value → Scripted Value
  | .and => logical fun left right => left && right
  | .nand => logical fun left right => !(left && right)
  | .or => logical fun left right => left || right
  | .nor => logical fun left right => !(left || right)
  | .xor => logical fun left right => left ^^ right
  | .nxor => logical fun left right => !(left ^^ right)
  | .eq => fun left right => .ok (.boolean (isEqual left right))
  | .neq => fun left right => .ok (.boolean !(isEqual left right))
  | .lt => compared MiniNumber.isLess
  | .lte => compared MiniNumber.isLessEqual
  | .gt => compared MiniNumber.isMore
  | .gte => compared MiniNumber.isMoreEqual
  | .not => fun left _ => match left with
    | .boolean b => .ok (.boolean !b)
    | _ => .error (.standard "Incorrect value type, expected BOOLEAN")

/-- What `getValue` makes of the two sides. `NOT` does not look at its right side. -/
def apply (zBooleanType : BooleanType) (lval rval : Value) : Scripted Value := do
  if zBooleanType ≠ .not then Value.checkSameType lval rval
  applyTyped zBooleanType lval rval

theorem logical_boolean {f : Bool → Bool → Bool} {lval rval val : Value}
    (h : logical f lval rval = .ok val) : ∃ b, val = .boolean b := by
  unfold logical at h
  split at h
  · exact ⟨_, (Except.ok.inj h).symm⟩
  · cases h

theorem compared_boolean {f : MiniNumber → MiniNumber → Bool} {lval rval val : Value}
    (h : compared f lval rval = .ok val) : ∃ b, val = .boolean b := by
  unfold compared at h
  split at h
  · exact ⟨_, (Except.ok.inj h).symm⟩
  · cases h

theorem applyTyped_boolean {zBooleanType : BooleanType} {lval rval val : Value}
    (h : applyTyped zBooleanType lval rval = .ok val) : ∃ b, val = .boolean b := by
  cases zBooleanType with
  | and | nand | or | nor | xor | nxor => exact logical_boolean h
  | lt | lte | gt | gte => exact compared_boolean h
  | eq | neq => exact ⟨_, (Except.ok.inj h).symm⟩
  | not =>
    cases lval with
    | boolean b => exact ⟨_, (Except.ok.inj h).symm⟩
    | hex | number | script => cases h

/-- **A boolean expression has a boolean value.** -/
theorem apply_boolean {zBooleanType : BooleanType} {lval rval val : Value}
    (h : apply zBooleanType lval rval = .ok val) : ∃ b, val = .boolean b := by
  unfold apply Value.checkSameType at h
  split_ifs at h with hnot hsame
  · exact applyTyped_boolean h
  · cases h
  · exact applyTyped_boolean h

end BooleanExpression

end Minima.Kissvm
