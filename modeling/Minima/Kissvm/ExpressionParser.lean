import Minima.Kissvm.ScriptTokenizer

/-! # `ExpressionParser`: tokens to expressions

Five levels of binary operators above the unary ones, each level a loop that takes operands and
combines them to the left. Brackets and function parameters start again at the top, one stack level
deeper.

The parsers take the tokens that are left and return the ones they leave. A parser at stack depth `d`
has `Contract.MAX_STACK_DEPTH + 1 - d` levels to go (`room`), and the source throws at zero. The guard
on the depth of the native recursion is left out: it fires at 200, and the stack depth fires at 65.

* **`ExpressionParser.getExpression`** — the expression that a whole list of tokens spells.
* **`ExpressionParser.parse_consumes`** — a parser takes at least one token. -/

namespace Minima.Kissvm

open BooleanExpression (BooleanType)

/-- `Contract::MAX_STACK_DEPTH`. -/
def maxStackDepth : ℕ := 64

/-- `Contract::MAX_FUNCTION_PARAMS`. -/
def maxFunctionParams : ℕ := 32

/-- The types of an `OperatorExpression`. -/
inductive OperatorType where
  | add | sub | mul | div | neg | shiftl | shiftr | modulo | and | or | xor | not
  deriving DecidableEq

/-- `Expression` with its subclasses. The right side of an operator is null for `NEG` and `~`. -/
inductive Expression where
  | constant (zValue : Value)
  | global (zType : Text)
  | variable (zName : Text)
  | boolean (zBooleanType : BooleanType) (zLeft zRight : Expression)
  | operator (zOperator : OperatorType) (zLeft : Expression) (zRight : Option Expression)
  | function (zFunction : MinimaFunction) (zParams : List Expression)

/-- A parser: the tokens that are left, and what it makes of them. -/
abbrev Parse (α : Type) := List ScriptToken → Scripted (α × List ScriptToken)

namespace ExpressionParser

/-- What `getNextToken` throws at the end. -/
def outOfTokens {α : Type} : Scripted α := .error (.parse "Run out of tokens!..")

/-! ## Binary operators -/

/-- A level of operators: their texts, and what they make of two operands. -/
abbrev Operators := List (Text × (Expression → Expression → Expression))

/-- The `while` loop of a level. The fuel bounds the number of turns. -/
def operatorLoop (operators : Operators) (operand : Parse Expression) : ℕ → Expression → Parse Expression
  | 0, exp, tokens => .ok (exp, tokens)
  | _ + 1, exp, [] => .ok (exp, [])
  | fuel + 1, exp, tok :: rest =>
    match operators.lookup tok.token with
    | some combine => do
      let (right, rest) ← operand rest
      operatorLoop operators operand fuel (combine exp right) rest
    -- goBackToken
    | none => .ok (exp, tok :: rest)

/-- A level: an operand, and further ones behind its operators. -/
def level (operators : Operators) (operand : Parse Expression) : Parse Expression := fun tokens => do
  let (exp, rest) ← operand tokens
  operatorLoop operators operand rest.length exp rest

/-- Operators that make a `BooleanExpression`. -/
def booleanLevel (operators : List (String × BooleanType)) : Operators :=
  operators.map fun p => (MiniNumber.ascii p.1, Expression.boolean p.2)

/-- Operators that make an `OperatorExpression`. -/
def operatorLevel (operators : List (String × OperatorType)) : Operators :=
  operators.map fun p =>
    (MiniNumber.ascii p.1, fun left right => Expression.operator p.2 left (some right))

/-- The loop of `getMulDiv`. -/
def getMulDiv : Parse Expression → Parse Expression :=
  level (operatorLevel [("*", .mul), ("/", .div), ("%", .modulo), ("<<", .shiftl), (">>", .shiftr)])

/-- The loop of `getAddSub`. -/
def getAddSub : Parse Expression → Parse Expression :=
  level (operatorLevel [("+", .add), ("-", .sub)])

/-- The loop of `getLogic`. -/
def getLogic : Parse Expression → Parse Expression :=
  level (operatorLevel [("&", .and), ("|", .or), ("^", .xor)])

/-- The loop of `getRelation`. -/
def getRelation : Parse Expression → Parse Expression :=
  level (booleanLevel
    [("LT", .lt), ("LTE", .lte), ("GT", .gt), ("GTE", .gte), ("EQ", .eq), ("NEQ", .neq)])

/-- The loop at the top level. -/
def getTop : Parse Expression → Parse Expression :=
  level (booleanLevel
    [("AND", .and), ("OR", .or), ("XOR", .xor), ("NAND", .nand), ("NOR", .nor), ("NXOR", .nxor)])

/-! ## Units -/

/-- A unit behind a unary operator. -/
def unary (operator : Expression → Expression) (getBaseUnit : Parse Expression) : Parse Expression :=
  fun tokens => do
    let (unit, rest) ← getBaseUnit tokens
    return (operator unit, rest)

/-- `getPrimary`: a unary operator in front of a unit, or the unit. `NOT` has a constant `FALSE` on its
right side. -/
def getPrimary (getBaseUnit : Parse Expression) : Parse Expression
  | [] => outOfTokens
  | tok :: rest =>
    if tok.token = MiniNumber.ascii "NOT" then
      unary (fun unit => .boolean .not unit (.constant (.boolean false))) getBaseUnit rest
    else if tok.token = MiniNumber.ascii "NEG" then
      unary (fun unit => .operator .neg unit none) getBaseUnit rest
    else if tok.token = MiniNumber.ascii "~" then
      unary (fun unit => .operator .not unit none) getBaseUnit rest
    else getBaseUnit (tok :: rest)

/-- The parameters of a function, up to the bracket that closes them. `left` is how many more there
may be. -/
def functionParams (param : Parse Expression) : ℕ → Parse (List Expression)
  | _, [] => outOfTokens
  | left, tok :: rest =>
    if tok.tokenType = .closeBracket then .ok ([], rest)
    else do
      let (exp, rest) ← param (tok :: rest)
      match left with
      | 0 => .error (.parse "Too many function params, max 32")
      | left + 1 =>
        let (exps, rest) ← functionParams param left rest
        return (exp :: exps, rest)

/-- A function behind its name. -/
def getFunction (param : Parse Expression) (f : MinimaFunction) : Parse Expression
  | [] => outOfTokens
  | bracket :: rest =>
    if bracket.tokenType ≠ .openBracket then
      .error (.parse "Missing opening bracket at start of function ")
    else do
      let (params, rest) ← functionParams param maxFunctionParams rest
      f.checkParamNumberCorrect params.length
      return (.function f params, rest)

/-- An expression in brackets behind the opening one. -/
def getBracketed (inner : Parse Expression) : Parse Expression := fun tokens => do
  let (exp, rest) ← inner tokens
  match rest with
  | [] => outOfTokens
  | closebracket :: rest =>
    if closebracket.tokenType ≠ .closeBracket then .error (.parse "Missing close bracket. Found : ")
    else return (exp, rest)

/-- `getBaseUnit`; `inner` parses one stack level deeper. -/
def getBaseUnit (inner : Parse Expression) : Parse Expression
  | [] => outOfTokens
  | tok :: rest =>
    if tok.tokenType = .value then do
      let val ← Value.getValue tok.token
      return (.constant val, rest)
    else if tok.token = MiniNumber.ascii "-" then
      match rest with
      | [] => outOfTokens
      | num :: rest => do
        let n ← ofResult (MiniNumber.ofText num.token)
        let numv ← ofResult (n.mult (.ofInt (-1)))
        return (.constant (.number numv), rest)
    else match tok.tokenType with
      | .global => .ok (.global tok.token, rest)
      | .variable => .ok (.variable tok.token, rest)
      | .true => .ok (.constant (.boolean true), rest)
      | .false => .ok (.constant (.boolean false), rest)
      | .function =>
        match MinimaFunction.getFunction tok.token with
        | none => .error (.parse "Invalid Function : ")
        | some f => getFunction inner f rest
      | .openBracket => getBracketed inner rest
      | _ => .error (.parse "Incorrect Token in script ")

/-- `getExpression` on a tokenizer with `room` stack levels to go. -/
def parse : ℕ → Parse Expression
  | 0 => fun _ => .error (.parse "Stack too deep (MAX 64) ")
  | room + 1 => getTop (getRelation (getLogic (getAddSub (getMulDiv (getPrimary
      (getBaseUnit (parse room)))))))

/-- The levels that a parser at a stack depth has to go. -/
def roomAt (zStackDepth : ℕ) : ℕ := maxStackDepth + 1 - zStackDepth

/-- `getExpression` on a list of tokens, which has to be used up. -/
def getExpression (zTokens : List ScriptToken) (zStackDepth : ℕ) : Scripted Expression :=
  if zTokens.isEmpty then .error (.parse "Cannot have EMPTY expression")
  else do
    let (exp, rest) ← parse (roomAt zStackDepth) zTokens
    if rest.isEmpty then return exp
    else .error (.parse "Incorrect token number in expression @ ")

/-! ## Parsers take tokens -/

/-- What a parser leaves is shorter than what it is given. -/
def Consumes {α : Type} (p : Parse α) : Prop :=
  ∀ tokens x rest, p tokens = .ok (x, rest) → rest.length < tokens.length

/-- **Peel a bind.** -/
theorem bind_eq_ok {α β : Type} {x : Scripted α} {f : α → Scripted β} {b : β} :
    (x >>= f) = .ok b ↔ ∃ a, x = .ok a ∧ f a = .ok b := by
  cases x with
  | error e => simp [bind, Except.bind]
  | ok a => simp [bind, Except.bind]

theorem operatorLoop_length_le {operators : Operators} {operand : Parse Expression}
    (hoperand : Consumes operand) (fuel : ℕ) (exp : Expression) (tokens : List ScriptToken)
    {x : Expression} {rest : List ScriptToken}
    (h : operatorLoop operators operand fuel exp tokens = .ok (x, rest)) :
    rest.length ≤ tokens.length := by
  fun_induction operatorLoop operators operand fuel exp tokens with
  | case1 => cases h; exact le_rfl
  | case2 => cases h; exact le_rfl
  | case3 exp fuel tok tokens combine hlookup ih =>
    obtain ⟨⟨right, rest'⟩, hright, hloop⟩ := bind_eq_ok.mp h
    have hshort := hoperand _ _ _ hright
    have hrest := ih right rest' hloop
    rw [List.length_cons]
    omega
  | case4 => cases h; exact le_rfl

/-- A level takes what its first operand takes. -/
theorem level_consumes (operators : Operators) {operand : Parse Expression}
    (hoperand : Consumes operand) : Consumes (level operators operand) := by
  intro tokens x rest h
  obtain ⟨⟨exp, rest'⟩, hexp, hloop⟩ := bind_eq_ok.mp h
  have hfirst := hoperand _ _ _ hexp
  have hothers := operatorLoop_length_le hoperand _ _ _ hloop
  exact lt_of_le_of_lt hothers hfirst

theorem unary_consumes (operator : Expression → Expression) {unit : Parse Expression}
    (hunit : Consumes unit) : Consumes (unary operator unit) := by
  intro tokens x rest h
  obtain ⟨⟨e, rest'⟩, he, hret⟩ := bind_eq_ok.mp h
  cases hret
  exact hunit _ _ _ he

theorem getPrimary_consumes {unit : Parse Expression} (hunit : Consumes unit) :
    Consumes (getPrimary unit) := by
  intro tokens x rest h
  cases tokens with
  | nil => cases h
  | cons tok tokens =>
    rw [getPrimary] at h
    split_ifs at h
    · exact Nat.lt_succ_of_lt (unary_consumes _ hunit _ _ _ h)
    · exact Nat.lt_succ_of_lt (unary_consumes _ hunit _ _ _ h)
    · exact Nat.lt_succ_of_lt (unary_consumes _ hunit _ _ _ h)
    · exact hunit _ _ _ h

theorem functionParams_consumes {param : Parse Expression} (hparam : Consumes param) (left : ℕ) :
    Consumes (functionParams param left) := by
  induction left with
  | zero =>
    intro tokens x rest h
    cases tokens with
    | nil => cases h
    | cons tok tokens =>
      unfold functionParams at h
      split_ifs at h
      · cases h
        exact Nat.lt_succ_self _
      · obtain ⟨⟨e, rest'⟩, he, hret⟩ := bind_eq_ok.mp h
        cases hret
  | succ left ih =>
    intro tokens x rest h
    cases tokens with
    | nil => cases h
    | cons tok tokens =>
      unfold functionParams at h
      split_ifs at h
      · cases h
        exact Nat.lt_succ_self _
      · obtain ⟨⟨e, rest'⟩, he, hrest⟩ := bind_eq_ok.mp h
        obtain ⟨⟨es, rest''⟩, hes, hret⟩ := bind_eq_ok.mp hrest
        cases hret
        exact (ih _ _ _ hes).trans (hparam _ _ _ he)

theorem getFunction_consumes {param : Parse Expression} (hparam : Consumes param)
    (f : MinimaFunction) : Consumes (getFunction param f) := by
  intro tokens x rest h
  cases tokens with
  | nil => cases h
  | cons bracket tokens =>
    rw [getFunction] at h
    split_ifs at h
    obtain ⟨⟨params, rest'⟩, hparams, hcheck⟩ := bind_eq_ok.mp h
    obtain ⟨_, _, hret⟩ := bind_eq_ok.mp hcheck
    cases hret
    exact Nat.lt_succ_of_lt (functionParams_consumes hparam _ _ _ _ hparams)

theorem getBracketed_consumes {inner : Parse Expression} (hinner : Consumes inner) :
    Consumes (getBracketed inner) := by
  intro tokens x rest h
  obtain ⟨⟨e, rest'⟩, he, hclose⟩ := bind_eq_ok.mp h
  have hshort := hinner _ _ _ he
  cases rest' with
  | nil => cases hclose
  | cons closebracket rest' =>
    simp only at hclose
    split_ifs at hclose
    cases hclose
    exact Nat.lt_of_succ_lt hshort

theorem getBaseUnit_consumes {inner : Parse Expression} (hinner : Consumes inner) :
    Consumes (getBaseUnit inner) := by
  intro tokens x rest h
  cases tokens with
  | nil => cases h
  | cons tok tokens =>
    unfold getBaseUnit at h
    dsimp only at h
    split_ifs at h with hvalue hminus
    · obtain ⟨v, _, hret⟩ := bind_eq_ok.mp h
      cases hret
      exact Nat.lt_succ_self _
    · cases tokens with
      | nil => cases h
      | cons num tokens =>
        obtain ⟨n, _, hmult⟩ := bind_eq_ok.mp h
        obtain ⟨numv, _, hret⟩ := bind_eq_ok.mp hmult
        cases hret
        exact Nat.lt_succ_of_lt (Nat.lt_succ_self _)
    · split at h
      · cases h
        exact Nat.lt_succ_self _
      · cases h
        exact Nat.lt_succ_self _
      · cases h
        exact Nat.lt_succ_self _
      · cases h
        exact Nat.lt_succ_self _
      · cases hf : MinimaFunction.getFunction tok.token with
        | none => rw [hf] at h; cases h
        | some f =>
          rw [hf] at h
          exact Nat.lt_succ_of_lt (getFunction_consumes hinner f _ _ _ h)
      · exact Nat.lt_succ_of_lt (getBracketed_consumes hinner _ _ _ h)
      · cases h

/-- **Every expression takes at least one token.** -/
theorem parse_consumes (room : ℕ) : Consumes (parse room) := by
  induction room with
  | zero => intro tokens x rest h; cases h
  | succ room ih =>
    apply level_consumes
    apply level_consumes
    apply level_consumes
    apply level_consumes
    apply level_consumes
    apply getPrimary_consumes
    exact getBaseUnit_consumes ih

/-- **The fuel of a level does not run out.** -/
theorem operatorLoop_of_le {operators : Operators} {operand : Parse Expression}
    (hoperand : Consumes operand) {fuel : ℕ} {exp : Expression} {tokens : List ScriptToken}
    (h : tokens.length ≤ fuel) :
    operatorLoop operators operand fuel exp tokens
      = operatorLoop operators operand tokens.length exp tokens := by
  induction fuel using Nat.strong_induction_on generalizing exp tokens with
  | h fuel ih =>
    cases tokens with
    | nil => cases fuel <;> rfl
    | cons tok tokens =>
      obtain ⟨fuel, rfl⟩ : ∃ n, fuel = n + 1 := ⟨fuel - 1, by simp at h; omega⟩
      have htokens : tokens.length ≤ fuel := Nat.le_of_succ_le_succ h
      rw [operatorLoop, List.length_cons, operatorLoop]
      cases operators.lookup tok.token with
      | none => rfl
      | some combine =>
        cases hright : operand tokens with
        | error e => rfl
        | ok p =>
          obtain ⟨right, rest⟩ := p
          have hrest : rest.length ≤ tokens.length := (hoperand _ _ _ hright).le
          have hlong := @ih fuel (Nat.lt_succ_self _) (combine exp right) rest (hrest.trans htokens)
          have hshort := @ih tokens.length (Nat.lt_succ_of_le htokens) (combine exp right) rest hrest
          simp only [bind, Except.bind, hlong, hshort]

end ExpressionParser

end Minima.Kissvm
