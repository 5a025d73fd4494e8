import Minima.Kissvm.ExpressionParser

/-! # `StatementParser`: tokens to statements

A statement starts with a command. What belongs to it ends at the next command, or at the `ENDIF` or
`ENDWHILE` of the block it opens. A block is parsed again from its own tokens, one stack level deeper.

The end of a block is taken for granted: at the end of the tokens `back` and `pop_back` are called on
an empty vector, which is undefined behaviour.

* **`StatementParser.parseTokens`** — the statements that a list of tokens spells.
* **`StatementParser.parseStatements_of_le`** — every statement takes at least one token. -/

namespace Minima.Kissvm

open ExpressionParser (bind_eq_ok getExpression)

/-- `Statement` with its subclasses; a `StatementBlock` is a list of statements. -/
inductive Statement where
  | letVariable (zVariableName : Text) (zExpression : Expression)
  | letArray (zArrayPos : List Expression) (zExpression : Expression)
  | exec (zScript : Expression)
  | mast (zMAST : Expression)
  | ifs (conditions : List (Expression × List Statement))
  | whiles (zWhileCheck : Expression) (zCodeBlock : List Statement)
  | assert (zAssertValue : Expression)
  | returns (zReturnValue : Expression)

namespace StatementParser

/-- `equalsIgnoreCase` with a text in upper case. -/
def equalsIgnoreCase (token : Text) (command : String) : Bool :=
  token.map BaseConverter.toUpper == MiniNumber.ascii command

/-- The token is this command. -/
def isCommand (tok : ScriptToken) (command : String) : Bool :=
  tok.tokenType = .command && tok.token == MiniNumber.ascii command

/-- What `at` throws behind the end. -/
def outOfRange {α : Type} : Scripted α := .error (.standard "vector::_M_range_check")

/-! ## Where blocks end -/

/-- `getElseOrElseIfOrEndIF`: the tokens of a block with the one that ends it. `nested` counts the
`IF`s that are open, where the source calls itself. -/
def getElseOrElseIfOrEndIF : ℕ → List ScriptToken → List ScriptToken
  | _, [] => []
  | nested, tok :: rest =>
    if isCommand tok "ENDIF" then
      match nested with
      | 0 => [tok]
      | nested + 1 => tok :: getElseOrElseIfOrEndIF nested rest
    else if nested = 0 ∧ (isCommand tok "ELSEIF" ∨ isCommand tok "ELSE") then [tok]
    else if isCommand tok "IF" then tok :: getElseOrElseIfOrEndIF (nested + 1) rest
    else tok :: getElseOrElseIfOrEndIF nested rest

/-- `getEndWHILE`: the tokens of a loop with its `ENDWHILE`. -/
def getEndWHILE : ℕ → List ScriptToken → List ScriptToken
  | _, [] => []
  | nested, tok :: rest =>
    if isCommand tok "ENDWHILE" then
      match nested with
      | 0 => [tok]
      | nested + 1 => tok :: getEndWHILE nested rest
    else if isCommand tok "WHILE" then tok :: getEndWHILE (nested + 1) rest
    else tok :: getEndWHILE nested rest

/-- `getTokensToNextCommand`, with the tokens behind. -/
def getTokensToNextCommand (tokens : List ScriptToken) : List ScriptToken × List ScriptToken :=
  tokens.span fun tok => tok.tokenType != .command

/-- `getTokensToRequiredCommand`, with the tokens behind the required one. -/
def getTokensToRequiredCommand (zRequiredToken : String) : Parse (List ScriptToken) := fun tokens =>
  match tokens.span fun tok => tok.token != MiniNumber.ascii zRequiredToken with
  | (_, []) => .error (.parse "Could not find required token : ")
  | (before, _ :: rest) => .ok (before, rest)

/-- `getTokensToNextEquals`, with the tokens behind. -/
def getTokensToNextEquals (tokens : List ScriptToken) : List ScriptToken × List ScriptToken :=
  tokens.span fun tok => !(tok.tokenType = .operator && tok.token == MiniNumber.ascii "=")

/-! ## Statements -/

section Depth

variable (parseBlock : List ScriptToken → Scripted (List Statement)) (currentStackDepth : ℕ)

/-- The expression up to the next command, and the statement it makes. -/
def expressionStatement (make : Expression → Statement) : Parse Statement := fun tokens => do
  let (exptokens, rest) := getTokensToNextCommand tokens
  let exp ← getExpression exptokens currentStackDepth
  return (make exp, rest)

/-- The expressions of an array position, until all tokens are used. The fuel bounds their number. -/
def arrayPositions : ℕ → List ScriptToken → Scripted (List Expression)
  | 0, _ => .ok []
  | _ + 1, [] => .ok []
  | fuel + 1, tokens => do
    let (exp, rest) ← ExpressionParser.parse (ExpressionParser.roomAt currentStackDepth) tokens
    let exps ← arrayPositions fuel rest
    return exp :: exps

/-- `LET` in front of an opening bracket. -/
def letArray (rest : List ScriptToken) : Scripted (Statement × List ScriptToken) :=
  let (arraypos, rest) := getTokensToNextEquals rest
  match arraypos.getLast? with
  | none => .error (.parse "Incorrect LET statement, missing ) .. )")
  | some var =>
    if var.tokenType ≠ .closeBracket then .error (.parse "Incorrect LET statement, missing ) .. ")
    else match rest with
      | [] => outOfRange
      | _ :: rest =>
        let tokens := arraypos.dropLast
        if tokens.isEmpty then .error (.parse "Incorrect LET statement, EMPTY ARRAY POS @ ")
        else do
          let exps ← arrayPositions currentStackDepth tokens.length tokens
          expressionStatement currentStackDepth (.letArray exps) rest

/-- `LET` in front of a variable. -/
def letVariable (varname : Text) : Parse Statement
  | [] => outOfRange
  | eq :: rest =>
    if eq.token ≠ MiniNumber.ascii "=" then .error (.parse "Incorrect LET statement, missing = (..")
    else expressionStatement currentStackDepth (.letVariable varname) rest

/-- Behind `LET`. -/
def parseLET : Parse Statement
  | [] => outOfRange
  | var0 :: rest =>
    if var0.tokenType = .openBracket then letArray currentStackDepth rest
    else if var0.tokenType = .variable then letVariable currentStackDepth var0.token rest
    else .error (.parse "Not a variable or array after LET (..")

/-- The condition between `IF`, `ELSEIF` or `WHILE` and its `THEN` or `DO`. -/
def parseCondition (zRequiredToken : String) : Parse Expression := fun tokens => do
  let (conditiontokens, rest) ← getTokensToRequiredCommand zRequiredToken tokens
  let condition ← getExpression conditiontokens currentStackDepth
  return (condition, rest)

/-- The condition behind the token that ended a block. `ELSE` is always met. -/
def nextCondition (nexttok : Text) : Parse Expression := fun rest =>
  if nexttok = MiniNumber.ascii "ELSE" then do
    let condition ← getExpression [⟨.true, MiniNumber.ascii "TRUE"⟩] currentStackDepth
    return (condition, rest)
  else if nexttok = MiniNumber.ascii "ELSEIF" then parseCondition currentStackDepth "THEN" rest
  else .error (.parse "MISSING ELSE or ELSEIF in IF Statement")

/-- The blocks of an `IF` statement behind a condition. The fuel bounds their number. -/
def parseBranches : ℕ → Expression → Parse (List (Expression × List Statement))
  | 0, _, tokens => .ok ([], tokens)
  | fuel + 1, condition, tokens =>
    let actiontokens := getElseOrElseIfOrEndIF 0 tokens
    match actiontokens.getLast? with
    | none => .error (.undefined "back of an empty vector")
    | some nexttok => do
      let action ← parseBlock actiontokens.dropLast
      let rest := tokens.drop actiontokens.length
      if nexttok.token = MiniNumber.ascii "ENDIF" then return ([(condition, action)], rest)
      else
        let (elseCondition, rest) ← nextCondition currentStackDepth nexttok.token rest
        let (branches, rest) ← parseBranches fuel elseCondition rest
        return ((condition, action) :: branches, rest)

/-- Behind `IF`. -/
def parseIF : Parse Statement := fun tokens => do
  let (condition, rest) ← parseCondition currentStackDepth "THEN" tokens
  let (branches, rest) ← parseBranches parseBlock currentStackDepth (rest.length + 1) condition rest
  return (.ifs branches, rest)

/-- Behind `WHILE`. The last token of the loop is dropped unseen. -/
def parseWHILE : Parse Statement := fun tokens => do
  let (condition, rest) ← parseCondition currentStackDepth "DO" tokens
  let actiontokens := getEndWHILE 0 rest
  if actiontokens.isEmpty then .error (.undefined "pop_back of an empty vector")
  else
    let action ← parseBlock actiontokens.dropLast
    return (.whiles condition action, rest.drop actiontokens.length)

/-- A statement: a command and what belongs to it. -/
def parseStatement : Parse Statement
  | [] => outOfRange
  | tok :: rest =>
    if tok.tokenType ≠ .command then
      .error (.parse "Invalid Token where there should be a COMMMAND - ")
    else if equalsIgnoreCase tok.token "LET" then parseLET currentStackDepth rest
    else if equalsIgnoreCase tok.token "EXEC" then expressionStatement currentStackDepth .exec rest
    else if equalsIgnoreCase tok.token "MAST" then expressionStatement currentStackDepth .mast rest
    else if equalsIgnoreCase tok.token "IF" then parseIF parseBlock currentStackDepth rest
    else if equalsIgnoreCase tok.token "WHILE" then parseWHILE parseBlock currentStackDepth rest
    else if equalsIgnoreCase tok.token "ASSERT" then expressionStatement currentStackDepth .assert rest
    else if equalsIgnoreCase tok.token "RETURN" then expressionStatement currentStackDepth .returns rest
    else .error (.parse "Invalid Token where there should be a Command - ")

/-- The `while` loop of `parseTokens`. The fuel bounds the number of statements. -/
def parseStatements : ℕ → List ScriptToken → Scripted (List Statement)
  | 0, _ => .ok []
  | _ + 1, [] => .ok []
  | fuel + 1, tok :: rest => do
    let (stat, rest) ← parseStatement parseBlock currentStackDepth (tok :: rest)
    let stats ← parseStatements fuel rest
    return stat :: stats

end Depth

/-- `parseTokens` with `room` stack levels to go. -/
def parseBlock : ℕ → List ScriptToken → Scripted (List Statement)
  | 0, _ => .error (.parse "Stack too deep (MAX 64) ")
  | room + 1, tokens =>
    parseStatements (parseBlock room) (maxStackDepth - room) tokens.length tokens

/-- `parseTokens`. -/
def parseTokens (zTokens : List ScriptToken) (zStackDepth : ℕ) : Scripted (List Statement) :=
  parseBlock (maxStackDepth - zStackDepth) zTokens

/-- The statements of a script text. -/
def parseScript (zScript : Text) (zStackDepth : ℕ) : Scripted (List Statement) := do
  let tokens ← ScriptTokenizer.tokenize zScript
  parseTokens tokens zStackDepth

/-! ## Statements take tokens -/

theorem getTokensToNextCommand_length_le (tokens : List ScriptToken) :
    (getTokensToNextCommand tokens).2.length ≤ tokens.length := by
  rw [getTokensToNextCommand, List.span_eq_takeWhile_dropWhile]
  exact List.length_dropWhile_le _ _

theorem getTokensToNextEquals_length_le (tokens : List ScriptToken) :
    (getTokensToNextEquals tokens).2.length ≤ tokens.length := by
  rw [getTokensToNextEquals, List.span_eq_takeWhile_dropWhile]
  exact List.length_dropWhile_le _ _

theorem getTokensToRequiredCommand_length_le {zRequiredToken : String}
    {tokens before rest : List ScriptToken}
    (h : getTokensToRequiredCommand zRequiredToken tokens = .ok (before, rest)) :
    rest.length ≤ tokens.length := by
  rw [getTokensToRequiredCommand, List.span_eq_takeWhile_dropWhile] at h
  have hdrop := List.length_dropWhile_le (fun tok => tok.token != MiniNumber.ascii zRequiredToken) tokens
  split at h
  · cases h
  · rename_i heq
    cases h
    rw [(Prod.mk.inj heq).2, List.length_cons] at hdrop
    exact Nat.le_of_succ_le hdrop

/-- What a parser leaves is no longer than what it is given. -/
def Shortens {α : Type} (p : Parse α) : Prop :=
  ∀ tokens x rest, p tokens = .ok (x, rest) → rest.length ≤ tokens.length

section Depth

variable {parseBlock : List ScriptToken → Scripted (List Statement)} {depth : ℕ}

theorem expressionStatement_shortens (make : Expression → Statement) :
    Shortens (expressionStatement depth make) := by
  intro tokens x rest h
  obtain ⟨exp, _, hret⟩ := bind_eq_ok.mp h
  cases hret
  exact getTokensToNextCommand_length_le tokens

theorem letArray_shortens : Shortens (letArray depth) := by
  intro tokens x rest h
  unfold letArray at h
  dsimp only at h
  have hequals := getTokensToNextEquals_length_le tokens
  split at h
  · cases h
  · split_ifs at h
    · split at h <;> cases h
    · split at h
      · cases h
      · rename_i eq rest' heq
        obtain ⟨exps, _, hexp⟩ := bind_eq_ok.mp h
        have hshort := expressionStatement_shortens _ _ _ _ hexp
        rw [heq, List.length_cons] at hequals
        exact hshort.trans (Nat.le_of_succ_le hequals)

theorem letVariable_shortens (varname : Text) : Shortens (letVariable depth varname) := by
  intro tokens x rest h
  cases tokens with
  | nil => cases h
  | cons eq tokens =>
    rw [letVariable] at h
    split_ifs at h
    exact Nat.le_succ_of_le (expressionStatement_shortens _ _ _ _ h)

theorem parseLET_shortens : Shortens (parseLET depth) := by
  intro tokens x rest h
  cases tokens with
  | nil => cases h
  | cons var0 tokens =>
    rw [parseLET] at h
    split_ifs at h
    · exact Nat.le_succ_of_le (letArray_shortens _ _ _ h)
    · exact Nat.le_succ_of_le (letVariable_shortens _ _ _ _ h)

theorem parseCondition_shortens (zRequiredToken : String) :
    Shortens (parseCondition depth zRequiredToken) := by
  intro tokens x rest h
  obtain ⟨⟨before, rest'⟩, hbefore, hexp⟩ := bind_eq_ok.mp h
  obtain ⟨condition, _, hret⟩ := bind_eq_ok.mp hexp
  cases hret
  exact getTokensToRequiredCommand_length_le hbefore

theorem nextCondition_shortens (nexttok : Text) : Shortens (nextCondition depth nexttok) := by
  intro tokens x rest h
  unfold nextCondition at h
  split_ifs at h
  · obtain ⟨condition, _, hret⟩ := bind_eq_ok.mp h
    cases hret
    exact le_rfl
  · exact parseCondition_shortens _ _ _ _ h

theorem parseBranches_shortens (fuel : ℕ) (condition : Expression) :
    Shortens (parseBranches parseBlock depth fuel condition) := by
  induction fuel generalizing condition with
  | zero => intro tokens x rest h; cases h; exact le_rfl
  | succ fuel ih =>
    intro tokens x rest h
    unfold parseBranches at h
    dsimp only at h
    split at h
    · cases h
    · obtain ⟨action, _, hnext⟩ := bind_eq_ok.mp h
      have hdrop : ∀ n, (tokens.drop n).length ≤ tokens.length := fun n => List.length_drop ▸ Nat.sub_le _ _
      split_ifs at hnext
      · cases hnext
        exact hdrop _
      · obtain ⟨⟨elseCondition, rest'⟩, helse, hmore⟩ := bind_eq_ok.mp hnext
        obtain ⟨⟨branches, rest''⟩, hbranches, hret⟩ := bind_eq_ok.mp hmore
        cases hret
        calc rest''.length ≤ rest'.length := ih _ _ _ _ hbranches
          _ ≤ (tokens.drop _).length := nextCondition_shortens _ _ _ _ helse
          _ ≤ tokens.length := hdrop _

/-- A block that ends somewhere takes at least one token. -/
theorem length_drop_branch_lt {tokens : List ScriptToken} {nexttok : ScriptToken}
    (h : (getElseOrElseIfOrEndIF 0 tokens).getLast? = some nexttok) :
    (tokens.drop (getElseOrElseIfOrEndIF 0 tokens).length).length < tokens.length := by
  have htaken : 0 < (getElseOrElseIfOrEndIF 0 tokens).length :=
    List.length_pos_of_mem (List.mem_of_getLast? h)
  cases tokens with
  | nil => exact absurd htaken (Nat.lt_irrefl 0)
  | cons tok tokens =>
    rw [List.length_drop]
    exact Nat.sub_lt (Nat.succ_pos _) htaken

/-- **The fuel of an `IF` does not run out.** -/
theorem parseBranches_of_lt {fuel : ℕ} {condition : Expression} {tokens : List ScriptToken}
    (h : tokens.length < fuel) :
    parseBranches parseBlock depth fuel condition tokens
      = parseBranches parseBlock depth (tokens.length + 1) condition tokens := by
  induction fuel using Nat.strong_induction_on generalizing condition tokens with
  | h fuel ih =>
    obtain ⟨fuel, rfl⟩ : ∃ n, fuel = n + 1 := ⟨fuel - 1, by omega⟩
    unfold parseBranches
    dsimp only
    cases hlast : (getElseOrElseIfOrEndIF 0 tokens).getLast? with
    | none => rfl
    | some nexttok =>
      have hdrop := length_drop_branch_lt hlast
      cases parseBlock (getElseOrElseIfOrEndIF 0 tokens).dropLast with
      | error e => rfl
      | ok action =>
        simp only [bind, Except.bind]
        split_ifs with hend
        · rfl
        · cases hnext : nextCondition depth nexttok.token
              (tokens.drop (getElseOrElseIfOrEndIF 0 tokens).length) with
          | error e => rfl
          | ok p =>
            obtain ⟨elseCondition, rest⟩ := p
            have hrest := (nextCondition_shortens _ _ _ _ hnext).trans_lt hdrop
            have hlong := @ih fuel (Nat.lt_succ_self _) elseCondition rest
              (hrest.trans_le (Nat.le_of_lt_succ h))
            have hshort := @ih tokens.length h elseCondition rest hrest
            simp only [hlong, hshort]

theorem parseIF_shortens : Shortens (parseIF parseBlock depth) := by
  intro tokens x rest h
  obtain ⟨⟨condition, rest'⟩, hcondition, hmore⟩ := bind_eq_ok.mp h
  obtain ⟨⟨branches, rest''⟩, hbranches, hret⟩ := bind_eq_ok.mp hmore
  cases hret
  exact (parseBranches_shortens _ _ _ _ _ hbranches).trans (parseCondition_shortens _ _ _ _ hcondition)

theorem parseWHILE_shortens : Shortens (parseWHILE parseBlock depth) := by
  intro tokens x rest h
  obtain ⟨⟨condition, rest'⟩, hcondition, hmore⟩ := bind_eq_ok.mp h
  dsimp only at hmore
  split_ifs at hmore
  obtain ⟨action, _, hret⟩ := bind_eq_ok.mp hmore
  cases hret
  exact (List.length_drop ▸ Nat.sub_le _ _).trans (parseCondition_shortens _ _ _ _ hcondition)

/-- **Every statement takes at least one token.** -/
theorem parseStatement_consumes :
    ExpressionParser.Consumes (parseStatement parseBlock depth) := by
  intro tokens x rest h
  cases tokens with
  | nil => cases h
  | cons tok tokens =>
    rw [parseStatement] at h
    split_ifs at h
    · exact Nat.lt_succ_of_le (parseLET_shortens _ _ _ h)
    · exact Nat.lt_succ_of_le (expressionStatement_shortens _ _ _ _ h)
    · exact Nat.lt_succ_of_le (expressionStatement_shortens _ _ _ _ h)
    · exact Nat.lt_succ_of_le (parseIF_shortens _ _ _ h)
    · exact Nat.lt_succ_of_le (parseWHILE_shortens _ _ _ h)
    · exact Nat.lt_succ_of_le (expressionStatement_shortens _ _ _ _ h)
    · exact Nat.lt_succ_of_le (expressionStatement_shortens _ _ _ _ h)

/-- **The fuel of a block does not run out.** -/
theorem parseStatements_of_le {fuel : ℕ} {tokens : List ScriptToken} (h : tokens.length ≤ fuel) :
    parseStatements parseBlock depth fuel tokens
      = parseStatements parseBlock depth tokens.length tokens := by
  induction fuel using Nat.strong_induction_on generalizing tokens with
  | h fuel ih =>
    cases tokens with
    | nil => cases fuel <;> rfl
    | cons tok tokens =>
      obtain ⟨fuel, rfl⟩ : ∃ n, fuel = n + 1 := ⟨fuel - 1, by simp at h; omega⟩
      have htokens : tokens.length ≤ fuel := Nat.le_of_succ_le_succ h
      rw [parseStatements, List.length_cons, parseStatements]
      cases hstat : parseStatement parseBlock depth (tok :: tokens) with
      | error e => rfl
      | ok p =>
        obtain ⟨stat, rest⟩ := p
        have hrest : rest.length ≤ tokens.length :=
          Nat.le_of_lt_succ (parseStatement_consumes _ _ _ hstat)
        have hlong := ih fuel (Nat.lt_succ_self _) (hrest.trans htokens)
        have hshort := ih tokens.length (Nat.lt_succ_of_le htokens) hrest
        simp only [bind, Except.bind, hlong, hshort]

/-- **The fuel of an array position does not run out.** -/
theorem arrayPositions_of_le {fuel : ℕ} {tokens : List ScriptToken} (h : tokens.length ≤ fuel) :
    arrayPositions depth fuel tokens = arrayPositions depth tokens.length tokens := by
  induction fuel using Nat.strong_induction_on generalizing tokens with
  | h fuel ih =>
    cases tokens with
    | nil => cases fuel <;> rfl
    | cons tok tokens =>
      obtain ⟨fuel, rfl⟩ : ∃ n, fuel = n + 1 := ⟨fuel - 1, by simp at h; omega⟩
      have htokens : tokens.length ≤ fuel := Nat.le_of_succ_le_succ h
      rw [arrayPositions, List.length_cons, arrayPositions]
      · cases hexp : ExpressionParser.parse (ExpressionParser.roomAt depth) (tok :: tokens) with
        | error e => rfl
        | ok p =>
          obtain ⟨exp, rest⟩ := p
          have hrest : rest.length ≤ tokens.length :=
            Nat.le_of_lt_succ (ExpressionParser.parse_consumes _ _ _ _ hexp)
          have hlong := ih fuel (Nat.lt_succ_self _) (hrest.trans htokens)
          have hshort := ih tokens.length (Nat.lt_succ_of_le htokens) hrest
          simp only [bind, Except.bind, hlong, hshort]
      · exact List.cons_ne_nil _ _
      · exact List.cons_ne_nil _ _

end Depth

example : (parseScript (MiniNumber.ascii "WHILE TRUE DO") 0).toOption.isNone = true := by
  decide +kernel

end StatementParser

end Minima.Kissvm
