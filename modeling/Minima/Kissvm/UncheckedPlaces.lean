import Minima.Kissvm.TokenShapes
import Minima.Kissvm.WellNested

/-! # When the parser reads well nested statements

The parser reads well nested statements, and it reads more: the last token of a loop is dropped whatever it
is, and where nothing follows a `THEN`, `DO` or `ELSE` it takes a token off an empty vector.

* **`Read`** — what a list of tokens reads as when the last one may stand for the end of a block.
* **`CutOff`** — the tokens come to a place that is not checked.
* **`parseTokens_wellNested_iff`** — the parser is right when they come to no such place and do not read as
  statements with a block without its end. -/

namespace Minima.Kissvm.StatementParser

open ExpressionParser (getExpression)

/-! ## What the parser reads -/

/-- The token is the first one with this text. -/
def FirstOf (text : String) (before : List ScriptToken) (tok : ScriptToken) : Prop :=
  (∀ tok' ∈ before, ¬ HasText text tok') ∧ HasText text tok

/-- A `LET` in front of a bracket, up to the bracket in front of the first `=`. -/
structure ArrayPosition (command opening : ScriptToken) (arraypos : List ScriptToken) (closing : ScriptToken) :
    Prop where
  command : Commands command "LET"
  opening : opening.tokenType = .openBracket
  noEquals : ∀ tok ∈ arraypos, ¬ IsEquals tok
  closing : closing.tokenType = .closeBracket

/-- What stands in front of the last expression of a statement without a block, and what that makes of it. -/
inductive Opens (depth : ℕ) : List ScriptToken → (Expression → Statement) → Prop
  | letVariable {command var eq : ScriptToken} (hcommand : Commands command "LET")
      (hvar : var.tokenType = .variable) (heq : HasText "=" eq) :
      Opens depth [command, var, eq] (.letVariable var.token)
  | letArray {command opening closing eq : ScriptToken} {arraypos : List ScriptToken} {exps : List Expression}
      (hfront : ArrayPosition command opening arraypos closing) (heq : IsEquals eq) (hpos : arraypos ≠ [])
      (hexps : arrayPositions depth arraypos.length arraypos = .ok exps) :
      Opens depth (command :: opening :: (arraypos ++ [closing, eq])) (.letArray exps)
  | expression {command : ScriptToken} {p : String × (Expression → Statement)} (hp : p ∈ expressionCommands)
      (hcommand : Commands command p.1) : Opens depth [command] p.2

/-- What stands between two branches of an `IF` where the parser looks for the first `THEN`. -/
inductive Divides (depth : ℕ) : ScriptToken → List ScriptToken → Expression → Prop
  | else {tok : ScriptToken} (htok : HasText "ELSE" tok) : Divides depth tok [] (.constant (.boolean true))
  | elseIf {tok then_ : ScriptToken} {conditiontokens : List ScriptToken} {condition : Expression}
      (htok : HasText "ELSEIF" tok) (hthen : FirstOf "THEN" conditiontokens then_)
      (hcondition : getExpression conditiontokens depth = .ok condition) :
      Divides depth tok (conditiontokens ++ [then_]) condition

/-- One block more without its end when the token does not end it. -/
def unclosed (last : ScriptToken) (command : String) : ℕ := if isCommand last command then 0 else 1

/-- **The part that a list of tokens reads as** when the last token of all may stand for the end of a block,
the tokens behind it, and the number of blocks in it whose last token does not end them. -/
inductive Read : ℕ → List ScriptToken → Part → List ScriptToken → ℕ → Prop
  | nil {room : ℕ} : Read (room + 1) [] (.block []) [] 0
  | plain {room n : ℕ} {front exptokens rest : List ScriptToken} {make : Expression → Statement}
      {exp : Expression} {stats : List Statement} (hopens : Opens (depthAt room) front make)
      (hupto : UpTo IsCommand exptokens rest) (hexp : getExpression exptokens (depthAt room) = .ok exp)
      (hrest : Read (room + 1) rest (.block stats) [] n) :
      Read (room + 1) (front ++ (exptokens ++ rest)) (.block (make exp :: stats)) [] n
  | ifs {room m n : ℕ} {tok then_ : ScriptToken} {conditiontokens tokens rest : List ScriptToken}
      {condition : Expression} {branches : List (Expression × List Statement)} {stats : List Statement}
      (htok : Commands tok "IF") (hthen : FirstOf "THEN" conditiontokens then_)
      (hcondition : getExpression conditiontokens (depthAt room) = .ok condition)
      (hbranches : Read (room + 1) tokens (.branches condition branches) rest m)
      (hrest : Read (room + 1) rest (.block stats) [] n) :
      Read (room + 1) (tok :: (conditiontokens ++ then_ :: tokens)) (.block (.ifs branches :: stats)) [] (m + n)
  -- the last token of a loop is popped without a look at it
  | whiles {room m n : ℕ} {tok do_ last : ScriptToken} {conditiontokens body rest : List ScriptToken}
      {condition : Expression} {action stats : List Statement} (htok : Commands tok "WHILE")
      (hdo : FirstOf "DO" conditiontokens do_)
      (hcondition : getExpression conditiontokens (depthAt room) = .ok condition)
      (hloop : EndsLoop body last rest) (hbody : Read room body (.block action) [] m)
      (hrest : Read (room + 1) rest (.block stats) [] n) :
      Read (room + 1) (tok :: (conditiontokens ++ do_ :: (body ++ last :: rest)))
        (.block (.whiles condition action :: stats)) [] (unclosed last "ENDWHILE" + m + n)
  -- the last token of an `IF` is compared by its text, but not by its type
  | endIf {room m : ℕ} {last : ScriptToken} {body rest : List ScriptToken} {condition : Expression}
      {action : List Statement} (hbranch : EndsBranch body last rest) (hbody : Read room body (.block action) [] m)
      (hlast : HasText "ENDIF" last) :
      Read (room + 1) (body ++ last :: rest) (.branches condition [(condition, action)]) rest
        (unclosed last "ENDIF" + m)
  | next {room m n : ℕ} {last : ScriptToken} {body between tokens rest : List ScriptToken}
      {condition elseCondition : Expression} {action : List Statement}
      {branches : List (Expression × List Statement)} (hbranch : EndsBranch body last (between ++ tokens))
      (hbody : Read room body (.block action) [] m) (hdivides : Divides (depthAt room) last between elseCondition)
      (hbranches : Read (room + 1) tokens (.branches elseCondition branches) rest n) :
      Read (room + 1) (body ++ last :: (between ++ tokens)) (.branches condition ((condition, action) :: branches))
        rest (m + n)

/-- The exception is a `MinimaParseException`. -/
def isParse : ScriptFault → Bool
  | .parse _ => true
  | _ => false

/-- The tokens spell no expression, and the exception is no `MinimaParseException`. -/
def Unmade (depth : ℕ) (tokens : List ScriptToken) : Prop :=
  ∃ e, getExpression tokens depth = .error e ∧ isParse e = false

/-- The commands with a condition, and the text behind it. -/
def conditionCommands : List (String × String) := [("IF", "THEN"), ("WHILE", "DO")]

/-- **A place that the parser does not check**: nothing is behind a `LET`, the variable or the bracket of a
`LET`, a `DO`, or (where the flag is set) a `THEN` or `ELSE`, or a constant cannot be made. -/
inductive Unchecked : ℕ → Bool → List ScriptToken → Prop
  -- `parseTokens` takes these tokens with `vector::at`
  | afterLet {room : ℕ} {command : ScriptToken} (hcommand : Commands command "LET") :
      Unchecked (room + 1) false [command]
  | afterVariable {room : ℕ} {command var : ScriptToken} (hcommand : Commands command "LET")
      (hvar : var.tokenType = .variable) : Unchecked (room + 1) false [command, var]
  | afterPosition {room : ℕ} {command opening closing : ScriptToken} {arraypos : List ScriptToken}
      (hfront : ArrayPosition command opening arraypos closing) :
      Unchecked (room + 1) false (command :: opening :: (arraypos ++ [closing]))
  -- `pop_back`, and for a branch `back`, of an empty vector
  | afterDo {room : ℕ} {tok do_ : ScriptToken} {conditiontokens : List ScriptToken} {condition : Expression}
      (htok : Commands tok "WHILE") (hdo : FirstOf "DO" conditiontokens do_)
      (hcondition : getExpression conditiontokens (depthAt room) = .ok condition) :
      Unchecked (room + 1) false (tok :: (conditiontokens ++ [do_]))
  | afterThen {room : ℕ} : Unchecked (room + 1) true []
  -- what the expression parser throws besides
  | position {room : ℕ} {command opening closing eq : ScriptToken} {arraypos rest : List ScriptToken}
      {e : ScriptFault} (hfront : ArrayPosition command opening arraypos closing) (heq : IsEquals eq)
      (hpos : arraypos ≠ []) (hexps : arrayPositions (depthAt room) arraypos.length arraypos = .error e)
      (he : isParse e = false) :
      Unchecked (room + 1) false (command :: opening :: (arraypos ++ closing :: eq :: rest))
  | expression {room : ℕ} {front exptokens rest : List ScriptToken} {make : Expression → Statement}
      (hopens : Opens (depthAt room) front make) (hupto : UpTo IsCommand exptokens rest)
      (hexp : Unmade (depthAt room) exptokens) : Unchecked (room + 1) false (front ++ (exptokens ++ rest))
  | condition {room : ℕ} {tok required : ScriptToken} {conditiontokens rest : List ScriptToken}
      {p : String × String} (hp : p ∈ conditionCommands) (htok : Commands tok p.1)
      (hrequired : FirstOf p.2 conditiontokens required) (hcondition : Unmade (depthAt room) conditiontokens) :
      Unchecked (room + 1) false (tok :: (conditiontokens ++ required :: rest))

/-- **The tokens come to such a place** behind what can be read. The flag is set behind the condition of an
`IF`. -/
inductive CutOff : ℕ → Bool → List ScriptToken → Prop
  | here {room : ℕ} {inBranches : Bool} {tokens : List ScriptToken} (h : Unchecked room inBranches tokens) :
      CutOff room inBranches tokens
  | elseIf {room m : ℕ} {last then_ : ScriptToken} {body conditiontokens rest : List ScriptToken}
      {action : List Statement} (hbranch : EndsBranch body last (conditiontokens ++ then_ :: rest))
      (hbody : Read room body (.block action) [] m) (hlast : HasText "ELSEIF" last)
      (hthen : FirstOf "THEN" conditiontokens then_) (hcondition : Unmade (depthAt room) conditiontokens) :
      CutOff (room + 1) true (body ++ last :: (conditiontokens ++ then_ :: rest))
  -- inside a block
  | inLoop {room : ℕ} {tok do_ last : ScriptToken} {conditiontokens body rest : List ScriptToken}
      {condition : Expression} (htok : Commands tok "WHILE") (hdo : FirstOf "DO" conditiontokens do_)
      (hcondition : getExpression conditiontokens (depthAt room) = .ok condition)
      (hloop : EndsLoop body last rest) (hbody : CutOff room false body) :
      CutOff (room + 1) false (tok :: (conditiontokens ++ do_ :: (body ++ last :: rest)))
  | inIf {room : ℕ} {tok then_ : ScriptToken} {conditiontokens tokens : List ScriptToken}
      {condition : Expression} (htok : Commands tok "IF") (hthen : FirstOf "THEN" conditiontokens then_)
      (hcondition : getExpression conditiontokens (depthAt room) = .ok condition)
      (hbranches : CutOff (room + 1) true tokens) :
      CutOff (room + 1) false (tok :: (conditiontokens ++ then_ :: tokens))
  | inBranch {room : ℕ} {last : ScriptToken} {body rest : List ScriptToken}
      (hbranch : EndsBranch body last rest) (hbody : CutOff room false body) :
      CutOff (room + 1) true (body ++ last :: rest)
  | inNextBranch {room m : ℕ} {last : ScriptToken} {body between tokens : List ScriptToken}
      {elseCondition : Expression} {action : List Statement}
      (hbranch : EndsBranch body last (between ++ tokens)) (hbody : Read room body (.block action) [] m)
      (hdivides : Divides (depthAt room) last between elseCondition) (htokens : CutOff (room + 1) true tokens) :
      CutOff (room + 1) true (body ++ last :: (between ++ tokens))
  -- behind what can be read
  | afterPlain {room : ℕ} {front exptokens rest : List ScriptToken} {make : Expression → Statement}
      {exp : Expression} (hopens : Opens (depthAt room) front make) (hupto : UpTo IsCommand exptokens rest)
      (hexp : getExpression exptokens (depthAt room) = .ok exp) (hrest : CutOff (room + 1) false rest) :
      CutOff (room + 1) false (front ++ (exptokens ++ rest))
  | afterIf {room m : ℕ} {tok then_ : ScriptToken} {conditiontokens tokens rest : List ScriptToken}
      {condition : Expression} {branches : List (Expression × List Statement)} (htok : Commands tok "IF")
      (hthen : FirstOf "THEN" conditiontokens then_)
      (hcondition : getExpression conditiontokens (depthAt room) = .ok condition)
      (hbranches : Read (room + 1) tokens (.branches condition branches) rest m)
      (hrest : CutOff (room + 1) false rest) :
      CutOff (room + 1) false (tok :: (conditiontokens ++ then_ :: tokens))
  | afterLoop {room m : ℕ} {tok do_ last : ScriptToken} {conditiontokens body rest : List ScriptToken}
      {condition : Expression} {action : List Statement} (htok : Commands tok "WHILE")
      (hdo : FirstOf "DO" conditiontokens do_)
      (hcondition : getExpression conditiontokens (depthAt room) = .ok condition)
      (hloop : EndsLoop body last rest) (hbody : Read room body (.block action) [] m)
      (hrest : CutOff (room + 1) false rest) :
      CutOff (room + 1) false (tok :: (conditiontokens ++ do_ :: (body ++ last :: rest)))

/-! ## The parser without its fuel -/

/-- The token is a command, and neither `IF` nor `WHILE`. -/
def PlainCommand (tok : ScriptToken) : Prop := ¬ Commands tok "IF" ∧ ¬ Commands tok "WHILE"

theorem Commands.text {tok : ScriptToken} {command : String} (h : Commands tok command) :
    tok.token.map BaseConverter.toUpper = MiniNumber.ascii command := beq_iff_eq.mp h.2

section Statements

variable {parseBlock : List ScriptToken → Scripted (List Statement)} {depth : ℕ}

theorem parseStatement_if {tok : ScriptToken} (h : Commands tok "IF") (tokens : List ScriptToken) :
    parseStatement parseBlock depth (tok :: tokens) = parseIF parseBlock depth tokens := by
  rw [parseStatement, if_neg (not_not.mpr h.1)]
  simp only [equalsIgnoreCase, h.text]
  rfl

theorem parseStatement_while {tok : ScriptToken} (h : Commands tok "WHILE") (tokens : List ScriptToken) :
    parseStatement parseBlock depth (tok :: tokens) = parseWHILE parseBlock depth tokens := by
  rw [parseStatement, if_neg (not_not.mpr h.1)]
  simp only [equalsIgnoreCase, h.text]
  rfl

theorem parseStatement_let {tok : ScriptToken} (h : Commands tok "LET") (tokens : List ScriptToken) :
    parseStatement parseBlock depth (tok :: tokens) = parseLET depth tokens := by
  rw [parseStatement, if_neg (not_not.mpr h.1), if_pos h.2]

theorem parseStatement_expression {tok : ScriptToken} {p : String × (Expression → Statement)}
    (hp : p ∈ expressionCommands) (h : Commands tok p.1) (tokens : List ScriptToken) :
    parseStatement parseBlock depth (tok :: tokens) = expressionStatement depth p.2 tokens := by
  rw [parseStatement, if_neg (not_not.mpr h.1)]
  simp only [equalsIgnoreCase, h.text]
  simp only [expressionCommands, List.mem_cons, List.not_mem_nil, or_false] at hp
  rcases hp with rfl | rfl | rfl | rfl <;> rfl

theorem expressionStatement_append {exptokens rest : List ScriptToken} (hupto : UpTo IsCommand exptokens rest)
    (make : Expression → Statement) :
    expressionStatement depth make (exptokens ++ rest) =
      (getExpression exptokens depth).map fun exp => (make exp, rest) := by
  rw [expressionStatement, getTokensToNextCommand_eq_iff.mpr ⟨rfl, hupto⟩]
  cases hexp : getExpression exptokens depth <;> simp [hexp, bind, Except.bind, Except.map, pure, Except.pure]

/-- The cut in front of the first `=`. -/
theorem ArrayPosition.getTokensToNextEquals {command opening closing : ScriptToken} {arraypos rest : List ScriptToken}
    (h : ArrayPosition command opening arraypos closing) (hrest : ∀ tok ∈ rest.head?, IsEquals tok) :
    getTokensToNextEquals (arraypos ++ closing :: rest) = (arraypos ++ [closing], rest) := by
  refine getTokensToNextEquals_eq_iff.mpr ⟨by simp, fun tok htok => ?_, hrest⟩
  rcases List.mem_append.mp htok with htok | htok
  · exact h.noEquals tok htok
  · rintro ⟨htype, -⟩
    rw [List.mem_singleton.mp htok, h.closing] at htype
    cases htype

theorem parseLET_array {command opening closing eq : ScriptToken} {arraypos : List ScriptToken}
    (h : ArrayPosition command opening arraypos closing) (heq : IsEquals eq) (hpos : arraypos ≠ [])
    (rest : List ScriptToken) :
    parseLET depth (opening :: (arraypos ++ closing :: eq :: rest)) = (do
      let exps ← arrayPositions depth arraypos.length arraypos
      expressionStatement depth (.letArray exps) rest) := by
  rw [parseLET, if_pos h.opening, letArray, h.getTokensToNextEquals (by simpa using heq)]
  simp [h.closing, hpos]

/-- **A statement without a block** is parsed up to the next command. -/
theorem parseStatement_opens {front exptokens rest : List ScriptToken} {make : Expression → Statement}
    (hopens : Opens depth front make) (hupto : UpTo IsCommand exptokens rest) :
    parseStatement parseBlock depth (front ++ (exptokens ++ rest)) =
      (getExpression exptokens depth).map fun exp => (make exp, rest) := by
  rw [← expressionStatement_append hupto]
  cases hopens with
  | @letVariable command var eq hcommand hvar heq =>
    have hequals : eq.token = MiniNumber.ascii "=" := heq
    simp only [List.cons_append, List.nil_append]
    rw [parseStatement_let hcommand, parseLET, if_neg (by rw [hvar]; decide), if_pos hvar, letVariable,
      if_neg (not_not.mpr hequals)]
  | letArray hfront heq hpos hexps =>
    simp only [List.cons_append, List.append_assoc, List.nil_append]
    rw [parseStatement_let hfront.command, parseLET_array hfront heq hpos, hexps]
    rfl
  | expression hp hcommand =>
    simp only [List.cons_append, List.nil_append]
    rw [parseStatement_expression hp hcommand]

theorem parseCondition_append {zRequiredToken : String} {conditiontokens : List ScriptToken} {required : ScriptToken}
    (h : FirstOf zRequiredToken conditiontokens required) (rest : List ScriptToken) :
    parseCondition depth zRequiredToken (conditiontokens ++ required :: rest) =
      (getExpression conditiontokens depth).map fun condition => (condition, rest) := by
  rw [parseCondition, getTokensToRequiredCommand_eq_ok.mpr ⟨required, rfl, h⟩]
  cases hexp : getExpression conditiontokens depth <;> simp [hexp, bind, Except.bind, Except.map, pure, Except.pure]

end Statements

/-- A block is a statement and the block behind it. -/
theorem parseBlock_cons (room : ℕ) (tok : ScriptToken) (tokens : List ScriptToken) :
    parseBlock (room + 1) (tok :: tokens) = (do
      let (stat, rest) ← parseStatement (parseBlock room) (depthAt room) (tok :: tokens)
      let stats ← parseBlock (room + 1) rest
      return stat :: stats) := by
  rw [parseBlock, List.length_cons, parseStatements, depthAt]
  cases hstat : parseStatement (parseBlock room) (maxStackDepth - room) (tok :: tokens) with
  | error e => rfl
  | ok p =>
    obtain ⟨stat, rest⟩ := p
    -- the fuel is the number of tokens, and the statement took one of them at least
    have hrest : rest.length ≤ tokens.length := Nat.le_of_lt_succ (parseStatement_consumes _ _ _ hstat)
    simp only [bind, Except.bind, parseStatements_of_le hrest, parseBlock]

theorem Opens.ne_nil {depth : ℕ} {front : List ScriptToken} {make : Expression → Statement}
    (h : Opens depth front make) : front ≠ [] := by
  cases h <;> simp

/-- A block with a statement without a block in front. -/
theorem parseBlock_opens {room : ℕ} {front exptokens rest : List ScriptToken} {make : Expression → Statement}
    (hopens : Opens (depthAt room) front make) (hupto : UpTo IsCommand exptokens rest) :
    parseBlock (room + 1) (front ++ (exptokens ++ rest)) = (do
      let exp ← getExpression exptokens (depthAt room)
      let stats ← parseBlock (room + 1) rest
      return make exp :: stats) := by
  have hstat : parseStatement (parseBlock room) (depthAt room) (front ++ (exptokens ++ rest)) =
      (getExpression exptokens (depthAt room)).map fun exp => (make exp, rest) :=
    parseStatement_opens hopens hupto
  cases front with
  | nil => exact absurd rfl hopens.ne_nil
  | cons tok front =>
    rw [List.cons_append] at hstat ⊢
    rw [parseBlock_cons, hstat]
    cases getExpression exptokens (depthAt room) <;> rfl

/-- The blocks of an `IF` behind a condition. -/
def runBranches (room : ℕ) (condition : Expression) : Parse (List (Expression × List Statement)) :=
  fun tokens => parseBranches (parseBlock room) (depthAt room) (tokens.length + 1) condition tokens

theorem runBranches_nil (room : ℕ) (condition : Expression) :
    runBranches room condition [] = .error (.undefined "back of an empty vector") := rfl

theorem runBranches_append {room : ℕ} {body rest : List ScriptToken} {last : ScriptToken}
    (h : EndsBranch body last rest) (condition : Expression) :
    runBranches room condition (body ++ last :: rest) = (do
      let action ← parseBlock room body
      if last.token = MiniNumber.ascii "ENDIF" then return ([(condition, action)], rest)
      else
        let (elseCondition, rest) ← nextCondition (depthAt room) last.token rest
        let (branches, rest) ← runBranches room elseCondition rest
        return ((condition, action) :: branches, rest)) := by
  have hscan : getElseOrElseIfOrEndIF 0 (body ++ last :: rest) = body ++ [last] :=
    getElseOrElseIfOrEndIF_eq_concat_iff.mpr ⟨rest, rfl, h⟩
  have hdrop : (body ++ last :: rest).drop (body.length + 1) = rest := by simp
  rw [runBranches, parseBranches, hscan]
  simp only [List.getLast?_concat, List.dropLast_concat, List.length_append, List.length_singleton, hdrop]
  cases parseBlock room body with
  | error e => rfl
  | ok action =>
    simp only [bind, Except.bind]
    split_ifs
    · rfl
    · cases hnext : nextCondition (depthAt room) last.token rest with
      | error e => rfl
      | ok p =>
        -- the tokens behind the next condition fit in the fuel that is left
        have hshort : p.2.length < body.length + (last :: rest).length := by
          have hle := nextCondition_shortens _ _ _ _ hnext
          rw [List.length_cons]
          omega
        simp only [parseBranches_of_lt hshort, runBranches]

theorem parseBlock_if {room : ℕ} {tok then_ : ScriptToken} {conditiontokens : List ScriptToken}
    (htok : Commands tok "IF") (hthen : FirstOf "THEN" conditiontokens then_) (tokens : List ScriptToken) :
    parseBlock (room + 1) (tok :: (conditiontokens ++ then_ :: tokens)) = (do
      let condition ← getExpression conditiontokens (depthAt room)
      let (branches, rest) ← runBranches room condition tokens
      let stats ← parseBlock (room + 1) rest
      return .ifs branches :: stats) := by
  rw [parseBlock_cons, parseStatement_if htok, parseIF, parseCondition_append hthen]
  cases getExpression conditiontokens (depthAt room) with
  | error e => rfl
  | ok condition =>
    simp only [Except.map, bind, Except.bind, runBranches]
    cases parseBranches (parseBlock room) (depthAt room) (tokens.length + 1) condition tokens <;> rfl

/-- A loop behind its condition. -/
theorem parseBlock_while {room : ℕ} {tok do_ : ScriptToken} {conditiontokens : List ScriptToken}
    (htok : Commands tok "WHILE") (hdo : FirstOf "DO" conditiontokens do_) (tokens : List ScriptToken) :
    parseBlock (room + 1) (tok :: (conditiontokens ++ do_ :: tokens)) = (do
      let condition ← getExpression conditiontokens (depthAt room)
      if (getEndWHILE 0 tokens).isEmpty then .error (.undefined "pop_back of an empty vector")
      else
        let action ← parseBlock room (getEndWHILE 0 tokens).dropLast
        let stats ← parseBlock (room + 1) (tokens.drop (getEndWHILE 0 tokens).length)
        return .whiles condition action :: stats) := by
  rw [parseBlock_cons, parseStatement_while htok, parseWHILE, parseCondition_append hdo]
  cases getExpression conditiontokens (depthAt room) with
  | error e => rfl
  | ok condition =>
    simp only [Except.map, bind, Except.bind]
    split_ifs
    · rfl
    · cases parseBlock room (getEndWHILE 0 tokens).dropLast <;> rfl

theorem parseBlock_loop {room : ℕ} {tok do_ last : ScriptToken} {conditiontokens body rest : List ScriptToken}
    (htok : Commands tok "WHILE") (hdo : FirstOf "DO" conditiontokens do_) (hloop : EndsLoop body last rest) :
    parseBlock (room + 1) (tok :: (conditiontokens ++ do_ :: (body ++ last :: rest))) = (do
      let condition ← getExpression conditiontokens (depthAt room)
      let action ← parseBlock room body
      let stats ← parseBlock (room + 1) rest
      return .whiles condition action :: stats) := by
  have hscan : getEndWHILE 0 (body ++ last :: rest) = body ++ [last] :=
    getEndWHILE_eq_concat_iff.mpr ⟨rest, rfl, hloop⟩
  rw [parseBlock_while htok hdo, hscan]
  simp

theorem getExpression_true (room : ℕ) :
    getExpression [⟨.true, MiniNumber.ascii "TRUE"⟩] (depthAt room) = .ok (.constant (.boolean true)) := by
  have hroom : ExpressionParser.roomAt (depthAt room) = maxStackDepth - depthAt room + 1 := by
    unfold ExpressionParser.roomAt depthAt
    omega
  unfold getExpression
  rw [hroom]
  rfl

theorem nextCondition_of_divides {room : ℕ} {last : ScriptToken} {between : List ScriptToken}
    {condition : Expression} (h : Divides (depthAt room) last between condition) (tokens : List ScriptToken) :
    nextCondition (depthAt room) last.token (between ++ tokens) = .ok (condition, tokens) := by
  cases h with
  | «else» htok =>
    have helse : last.token = MiniNumber.ascii "ELSE" := htok
    rw [nextCondition, if_pos helse, getExpression_true]
    rfl
  | elseIf htok hthen hcondition =>
    have helseIf : last.token = MiniNumber.ascii "ELSEIF" := htok
    rw [nextCondition, if_neg (by rw [helseIf]; decide), if_pos helseIf, List.append_assoc, List.singleton_append,
      parseCondition_append hthen, hcondition]
    rfl

theorem Divides.not_endIf {depth : ℕ} {last : ScriptToken} {between : List ScriptToken}
    {condition : Expression} (h : Divides depth last between condition) :
    last.token ≠ MiniNumber.ascii "ENDIF" := by
  cases h with
  | «else» htok =>
    rw [HasText] at htok
    rw [htok]
    decide
  | elseIf htok =>
    rw [HasText] at htok
    rw [htok]
    decide

/-! ## The parser and what it reads -/

/-- What a read part says about the parser. -/
def Runs : ℕ → List ScriptToken → Part → List ScriptToken → Prop
  | room, tokens, .block stats, rest => parseBlock room tokens = .ok stats ∧ rest = []
  | room + 1, tokens, .branches condition list, rest =>
    runBranches room condition tokens = .ok (list, rest)
  | 0, _, .branches _ _, _ => False

/-- **The parser reads every part.** -/
theorem Read.runs {room n : ℕ} {tokens rest : List ScriptToken} {part : Part}
    (h : Read room tokens part rest n) : Runs room tokens part rest := by
  induction h with
  | nil => exact ⟨rfl, rfl⟩
  | plain hopens hupto hexp _ ih =>
    refine ⟨?_, rfl⟩
    rw [parseBlock_opens hopens hupto, hexp]
    simp only [bind, Except.bind, ih.1]
    rfl
  | ifs htok hthen hcondition _ _ ihbranches ih =>
    refine ⟨?_, rfl⟩
    rw [parseBlock_if htok hthen, hcondition]
    simp only [Runs] at ihbranches
    simp only [bind, Except.bind, ihbranches, ih.1]
    rfl
  | whiles htok hdo hcondition hloop _ _ ihbody ih =>
    refine ⟨?_, rfl⟩
    rw [parseBlock_loop htok hdo hloop, hcondition]
    simp only [bind, Except.bind, ihbody.1, ih.1]
    rfl
  | @endIf room m last body rest condition action hbranch _ hlast ihbody =>
    have hend : last.token = MiniNumber.ascii "ENDIF" := hlast
    rw [Runs, runBranches_append hbranch]
    simp only [bind, Except.bind, ihbody.1, if_pos hend]
    rfl
  | next hbranch _ hdivides _ ihbody ih =>
    simp only [Runs] at ih
    rw [Runs, runBranches_append hbranch]
    simp only [bind, Except.bind, ihbody.1, if_neg hdivides.not_endIf, nextCondition_of_divides hdivides, ih]
    rfl

/-- The outcome of the parser at a place: the exception is no `MinimaParseException`. -/
def Breaks : ℕ → Bool → List ScriptToken → Prop
  | room, false, tokens => ∃ e, parseBlock room tokens = .error e ∧ isParse e = false
  | room + 1, true, tokens => ∀ condition, ∃ e, runBranches room condition tokens = .error e ∧ isParse e = false
  | 0, true, _ => False

theorem parseBlock_of_parseLET {room : ℕ} {command : ScriptToken} {tokens : List ScriptToken} {e : ScriptFault}
    (hcommand : Commands command "LET") (h : parseLET (depthAt room) tokens = .error e) :
    parseBlock (room + 1) (command :: tokens) = .error e := by
  rw [parseBlock_cons, parseStatement_let hcommand, h]
  rfl

theorem Unchecked.breaks {room : ℕ} {inBranches : Bool} {tokens : List ScriptToken}
    (h : Unchecked room inBranches tokens) : Breaks room inBranches tokens := by
  cases h with
  | afterLet hcommand => exact ⟨_, parseBlock_of_parseLET hcommand rfl, rfl⟩
  | @afterVariable room command var hcommand hvar =>
    have hbracket : var.tokenType ≠ .openBracket := by
      rw [hvar]
      decide
    have hlet : parseLET (depthAt room) [var] = outOfRange := by
      rw [parseLET, if_neg hbracket, if_pos hvar, letVariable]
    exact ⟨_, parseBlock_of_parseLET hcommand hlet, rfl⟩
  | @afterPosition room command opening closing arraypos hfront =>
    have hlet : parseLET (depthAt room) (opening :: (arraypos ++ [closing])) = outOfRange := by
      rw [parseLET, if_pos hfront.opening, letArray, hfront.getTokensToNextEquals (by simp)]
      simp [hfront.closing]
    exact ⟨_, parseBlock_of_parseLET hfront.command hlet, rfl⟩
  | afterDo htok hdo hcondition =>
    refine ⟨.undefined "pop_back of an empty vector", ?_, rfl⟩
    rw [parseBlock_while htok hdo, hcondition]
    rfl
  | afterThen => exact fun condition => ⟨_, runBranches_nil _ condition, rfl⟩
  | position hfront heq hpos hexps he =>
    refine ⟨_, parseBlock_of_parseLET hfront.command ?_, he⟩
    rw [parseLET_array hfront heq hpos, hexps]
    rfl
  | expression hopens hupto hexp =>
    obtain ⟨e, hexp, he⟩ := hexp
    refine ⟨e, ?_, he⟩
    rw [parseBlock_opens hopens hupto, hexp]
    rfl
  | condition hp htok hrequired hcondition =>
    obtain ⟨e, hcondition, he⟩ := hcondition
    refine ⟨e, ?_, he⟩
    simp only [conditionCommands, List.mem_cons, List.not_mem_nil, or_false] at hp
    rcases hp with rfl | rfl
    · rw [parseBlock_if htok hrequired, hcondition]
      rfl
    · rw [parseBlock_while htok hrequired, hcondition]
      rfl

/-- **At a place that it does not check** the parser does not throw a `MinimaParseException`. -/
theorem CutOff.breaks {room : ℕ} {inBranches : Bool} {tokens : List ScriptToken}
    (h : CutOff room inBranches tokens) : Breaks room inBranches tokens := by
  induction h with
  | here h => exact h.breaks
  | @elseIf room m last then_ body conditiontokens rest action hbranch hbody hlast hthen hcondition =>
    obtain ⟨e, hcondition, he⟩ := hcondition
    have helseIf : last.token = MiniNumber.ascii "ELSEIF" := hlast
    have hnext : nextCondition (depthAt room) last.token (conditiontokens ++ then_ :: rest) = .error e := by
      rw [nextCondition, if_neg (by rw [helseIf]; decide), if_pos helseIf, parseCondition_append hthen, hcondition]
      rfl
    refine fun condition => ⟨e, ?_, he⟩
    rw [runBranches_append hbranch]
    simp only [bind, Except.bind, hbody.runs.1, hnext]
    rw [if_neg (by rw [helseIf]; decide)]
  | inLoop htok hdo hcondition hloop _ ih =>
    obtain ⟨e, hparse, he⟩ := ih
    refine ⟨e, ?_, he⟩
    rw [parseBlock_loop htok hdo hloop, hcondition, hparse]
    rfl
  | @inIf room tok then_ conditiontokens tokens condition htok hthen hcondition _ ih =>
    obtain ⟨e, hparse, he⟩ := ih condition
    refine ⟨e, ?_, he⟩
    rw [parseBlock_if htok hthen, hcondition]
    simp only [bind, Except.bind, hparse]
  | inBranch hbranch _ ih =>
    obtain ⟨e, hparse, he⟩ := ih
    refine fun condition => ⟨e, ?_, he⟩
    rw [runBranches_append hbranch, hparse]
    rfl
  | @inNextBranch room m last body between tokens elseCondition action hbranch hbody hdivides _ ih =>
    obtain ⟨e, hparse, he⟩ := ih elseCondition
    refine fun condition => ⟨e, ?_, he⟩
    rw [runBranches_append hbranch]
    simp only [bind, Except.bind, hbody.runs.1, if_neg hdivides.not_endIf, nextCondition_of_divides hdivides,
      hparse]
  | afterPlain hopens hupto hexp _ ih =>
    obtain ⟨e, hparse, he⟩ := ih
    refine ⟨e, ?_, he⟩
    rw [parseBlock_opens hopens hupto, hexp, hparse]
    rfl
  | afterIf htok hthen hcondition hbranches _ ih =>
    obtain ⟨e, hparse, he⟩ := ih
    have hruns := hbranches.runs
    simp only [Runs] at hruns
    refine ⟨e, ?_, he⟩
    rw [parseBlock_if htok hthen, hcondition]
    simp only [bind, Except.bind, hruns, hparse]
  | afterLoop htok hdo hcondition hloop hbody _ ih =>
    obtain ⟨e, hparse, he⟩ := ih
    refine ⟨e, ?_, he⟩
    rw [parseBlock_loop htok hdo hloop, hcondition]
    simp only [bind, Except.bind, hbody.runs.1, hparse]

/-- An outcome that is explained: what is read, or, for an exception that is no `MinimaParseException`, the
place that it comes from. -/
def Explained {α : Type} (read : α → Prop) (cut : Prop) : Scripted α → Prop
  | .ok a => read a
  | .error e => isParse e = false → cut

theorem Explained.bind {α β : Type} {read : α → Prop} {read' : β → Prop} {cut cut' : Prop} {x : Scripted α}
    {f : α → Scripted β} (hx : Explained read cut x) (hcut : cut → cut')
    (hf : ∀ a, read a → Explained read' cut' (f a)) : Explained read' cut' (x >>= f) := by
  cases x with
  | ok a => exact hf a hx
  | error e => exact fun he => hcut (hx he)

/-- A parse exception needs no place. -/
theorem explained_parse {α : Type} {read : α → Prop} {cut : Prop} (what : String) :
    Explained read cut (.error (.parse what)) := fun he => absurd he (by simp [isParse])

theorem explained_getExpression (depth : ℕ) (tokens : List ScriptToken) :
    Explained (fun exp => getExpression tokens depth = .ok exp) (Unmade depth tokens) (getExpression tokens depth) := by
  cases hexp : getExpression tokens depth with
  | ok exp => rfl
  | error e => exact fun he => ⟨e, hexp, he⟩

/-- A condition is found in front of the first token that the parser looks for. -/
theorem explained_parseCondition (depth : ℕ) (zRequiredToken : String) (tokens : List ScriptToken) :
    Explained (fun p : Expression × List ScriptToken => ∃ conditiontokens required,
        tokens = conditiontokens ++ required :: p.2 ∧ FirstOf zRequiredToken conditiontokens required ∧
          getExpression conditiontokens depth = .ok p.1)
      (∃ conditiontokens required rest, tokens = conditiontokens ++ required :: rest ∧
        FirstOf zRequiredToken conditiontokens required ∧ Unmade depth conditiontokens)
      (parseCondition depth zRequiredToken tokens) := by
  unfold parseCondition
  cases hbefore : getTokensToRequiredCommand zRequiredToken tokens with
  | error e =>
    obtain ⟨what, rfl⟩ := getTokensToRequiredCommand_eq_error hbefore
    exact explained_parse what
  | ok p =>
    obtain ⟨required, htokens, hrequired⟩ := getTokensToRequiredCommand_eq_ok.mp hbefore
    refine (explained_getExpression depth p.1).bind
      (fun hcondition => ⟨p.1, required, p.2, htokens, hrequired, hcondition⟩) fun condition hcondition => ?_
    exact ⟨p.1, required, htokens, hrequired, hcondition⟩

/-- What follows a branch that no `ENDIF` ends. -/
theorem explained_nextCondition (room : ℕ) (last : ScriptToken) (tokens : List ScriptToken) :
    Explained (fun p : Expression × List ScriptToken => ∃ between,
        tokens = between ++ p.2 ∧ Divides (depthAt room) last between p.1)
      (HasText "ELSEIF" last ∧ ∃ conditiontokens then_ rest, tokens = conditiontokens ++ then_ :: rest ∧
        FirstOf "THEN" conditiontokens then_ ∧ Unmade (depthAt room) conditiontokens)
      (nextCondition (depthAt room) last.token tokens) := by
  unfold nextCondition
  split_ifs with helse helseIf
  · rw [getExpression_true]
    exact ⟨[], rfl, .else helse⟩
  · have hcondition := explained_parseCondition (depthAt room) "THEN" tokens
    cases hparse : parseCondition (depthAt room) "THEN" tokens with
    | error e =>
      rw [hparse] at hcondition
      exact fun he => ⟨helseIf, hcondition he⟩
    | ok p =>
      rw [hparse] at hcondition
      obtain ⟨conditiontokens, then_, htokens, hthen, hexp⟩ := hcondition
      exact ⟨conditiontokens ++ [then_], by simp [htokens], .elseIf helseIf hthen hexp⟩
  · exact explained_parse _

/-- A statement without a block at the front of the tokens. -/
def ReadsPlain (depth : ℕ) (tokens : List ScriptToken) (p : Statement × List ScriptToken) : Prop :=
  ∃ front exptokens make exp, tokens = front ++ (exptokens ++ p.2) ∧ Opens depth front make ∧
    UpTo IsCommand exptokens p.2 ∧ getExpression exptokens depth = .ok exp ∧ p.1 = make exp

/-- The last expression of a statement without a block. -/
theorem explained_expressionStatement {room : ℕ} {front : List ScriptToken} {make : Expression → Statement}
    (hopens : Opens (depthAt room) front make) (tokens : List ScriptToken) :
    Explained (ReadsPlain (depthAt room) (front ++ tokens)) (Unchecked (room + 1) false (front ++ tokens))
      (expressionStatement (depthAt room) make tokens) := by
  obtain ⟨exptokens, rest, hcut⟩ : ∃ exptokens rest, getTokensToNextCommand tokens = (exptokens, rest) :=
    ⟨_, _, rfl⟩
  obtain ⟨rfl, hupto⟩ := getTokensToNextCommand_eq_iff.mp hcut
  unfold expressionStatement
  rw [hcut]
  exact (explained_getExpression (depthAt room) exptokens).bind (fun hexp => .expression hopens hupto hexp)
    fun exp hexp => ⟨front, exptokens, make, exp, rfl, hopens, hupto, hexp, rfl⟩

theorem explained_letVariable {room : ℕ} {command var : ScriptToken} (hcommand : Commands command "LET")
    (hvar : var.tokenType = .variable) (tokens : List ScriptToken) :
    Explained (ReadsPlain (depthAt room) (command :: var :: tokens))
      (Unchecked (room + 1) false (command :: var :: tokens)) (letVariable (depthAt room) var.token tokens) := by
  cases tokens with
  | nil => exact fun _ => .afterVariable hcommand hvar
  | cons eq tokens =>
    rw [letVariable]
    split_ifs with heq
    · exact explained_parse _
    · exact explained_expressionStatement (.letVariable hcommand hvar (not_not.mp heq)) tokens

theorem explained_letArray {room : ℕ} {command opening : ScriptToken} (hcommand : Commands command "LET")
    (hopening : opening.tokenType = .openBracket) (tokens : List ScriptToken) :
    Explained (ReadsPlain (depthAt room) (command :: opening :: tokens))
      (Unchecked (room + 1) false (command :: opening :: tokens)) (letArray (depthAt room) tokens) := by
  obtain ⟨before, rest, hcut⟩ : ∃ before rest, getTokensToNextEquals tokens = (before, rest) := ⟨_, _, rfl⟩
  obtain ⟨rfl, hbefore, hrest⟩ := getTokensToNextEquals_eq_iff.mp hcut
  unfold letArray
  rw [hcut]
  dsimp only
  rcases List.eq_nil_or_concat before with rfl | ⟨arraypos, closing, rfl⟩
  · exact explained_parse _
  rw [List.concat_eq_append] at hbefore ⊢
  rw [List.getLast?_concat, List.dropLast_concat]
  dsimp only
  by_cases hclosing : closing.tokenType = .closeBracket
  · have hfront : ArrayPosition command opening arraypos closing :=
      ⟨hcommand, hopening, fun tok htok => hbefore tok (List.mem_append_left _ htok), hclosing⟩
    rw [if_neg (not_not.mpr hclosing)]
    cases rest with
    | nil =>
      rw [List.append_nil]
      exact fun _ => .afterPosition hfront
    | cons eq rest =>
      have heq : IsEquals eq := hrest eq rfl
      rw [List.append_assoc, List.singleton_append]
      dsimp only
      split_ifs with hempty
      · exact explained_parse _
      have hpos : arraypos ≠ [] := by simpa using hempty
      cases hexps : arrayPositions (depthAt room) arraypos.length arraypos with
      | error e => exact fun he => .position hfront heq hpos hexps he
      | ok exps =>
        have htokens : command :: opening :: (arraypos ++ closing :: eq :: rest) =
            command :: opening :: (arraypos ++ [closing, eq]) ++ rest := by simp
        rw [htokens]
        exact explained_expressionStatement (.letArray hfront heq hpos hexps) rest
  · rw [if_pos hclosing]
    exact explained_parse _

/-- **A statement without a block** is read, or comes to a place that is not checked. -/
theorem explained_plain {room : ℕ} {tok : ScriptToken} (htok : PlainCommand tok) (tokens : List ScriptToken) :
    Explained (ReadsPlain (depthAt room) (tok :: tokens)) (Unchecked (room + 1) false (tok :: tokens))
      (parseStatement (parseBlock room) (depthAt room) (tok :: tokens)) := by
  have hexpression : ∀ (name : String) (make : Expression → Statement), (name, make) ∈ expressionCommands →
      Commands tok name → Explained (ReadsPlain (depthAt room) (tok :: tokens))
        (Unchecked (room + 1) false (tok :: tokens)) (expressionStatement (depthAt room) make tokens) :=
    fun name make hmem hcommand => explained_expressionStatement (.expression hmem hcommand) tokens
  rw [parseStatement]
  split_ifs with htype hlet hexec hmast hif hwhile hassert hreturn
  · exact explained_parse _
  · have hcommand : Commands tok "LET" := ⟨not_not.mp htype, hlet⟩
    cases tokens with
    | nil => exact fun _ => .afterLet hcommand
    | cons var0 tokens =>
      rw [parseLET]
      split_ifs with hopen hvar
      · exact explained_letArray hcommand hopen tokens
      · exact explained_letVariable hcommand hvar tokens
      · exact explained_parse _
  · exact hexpression "EXEC" .exec (by simp [expressionCommands]) ⟨not_not.mp htype, hexec⟩
  · exact hexpression "MAST" .mast (by simp [expressionCommands]) ⟨not_not.mp htype, hmast⟩
  · exact absurd ⟨not_not.mp htype, hif⟩ htok.1
  · exact absurd ⟨not_not.mp htype, hwhile⟩ htok.2
  · exact hexpression "ASSERT" .assert (by simp [expressionCommands]) ⟨not_not.mp htype, hassert⟩
  · exact hexpression "RETURN" .returns (by simp [expressionCommands]) ⟨not_not.mp htype, hreturn⟩
  · exact explained_parse _

section Explain

variable {room : ℕ}
  (hblock : ∀ tokens, Explained (fun stats => ∃ n, Read room tokens (.block stats) [] n)
    (CutOff room false tokens) (parseBlock room tokens))

include hblock

theorem explained_branches (tokens : List ScriptToken) (condition : Expression) :
    Explained (fun p => ∃ n, Read (room + 1) tokens (.branches condition p.1) p.2 n)
      (CutOff (room + 1) true tokens) (runBranches room condition tokens) := by
  induction hlen : tokens.length using Nat.strong_induction_on generalizing tokens condition with
  | h len ih =>
    subst hlen
    rcases eq_or_ne tokens [] with rfl | hne
    · exact fun _ => .here .afterThen
    -- a branch is a block and the token that the scan found; the induction is on the tokens behind them
    obtain ⟨body, last, hscan⟩ := exists_branch hne
    obtain ⟨rest, rfl, hbranch⟩ := getElseOrElseIfOrEndIF_eq_concat_iff.mp hscan
    rw [runBranches_append hbranch]
    refine (hblock body).bind (.inBranch hbranch) ?_
    rintro action ⟨m, hbody⟩
    split_ifs with hlast
    · exact ⟨_, .endIf hbranch hbody hlast⟩
    · refine (explained_nextCondition room last rest).bind ?_ ?_
      · rintro ⟨helseIf, conditiontokens, then_, rest', rfl, hthen, hcondition⟩
        exact .elseIf hbranch hbody helseIf hthen hcondition
      · rintro ⟨elseCondition, tokens'⟩ ⟨between, rfl, hdivides⟩
        have hshort : tokens'.length < (body ++ last :: (between ++ tokens')).length := by
          simp only [List.length_append, List.length_cons]
          omega
        refine (ih _ hshort tokens' elseCondition rfl).bind (.inNextBranch hbranch hbody hdivides) ?_
        rintro ⟨branches, rest'⟩ ⟨n, hbranches⟩
        exact ⟨_, .next hbranch hbody hdivides hbranches⟩

/-- What a statement at the front of the tokens says about the whole. -/
def Extends (room : ℕ) (tokens : List ScriptToken) (p : Statement × List ScriptToken) : Prop :=
  (∀ stats n, Read (room + 1) p.2 (.block stats) [] n →
    ∃ n', Read (room + 1) tokens (.block (p.1 :: stats)) [] n') ∧
  (CutOff (room + 1) false p.2 → CutOff (room + 1) false tokens)

theorem explained_if {tok : ScriptToken} (htok : Commands tok "IF") (tokens : List ScriptToken) :
    Explained (Extends room (tok :: tokens)) (CutOff (room + 1) false (tok :: tokens))
      (parseIF (parseBlock room) (depthAt room) tokens) := by
  refine (explained_parseCondition (depthAt room) "THEN" tokens).bind ?_ ?_
  · rintro ⟨conditiontokens, then_, rest, rfl, hthen, hcondition⟩
    exact .here (.condition (p := ("IF", "THEN")) (by simp [conditionCommands]) htok hthen hcondition)
  · rintro ⟨condition, tokens'⟩ ⟨conditiontokens, then_, rfl, hthen, hcondition⟩
    refine (explained_branches hblock tokens' condition).bind (.inIf htok hthen hcondition) ?_
    rintro ⟨branches, rest⟩ ⟨m, hbranches⟩
    exact ⟨fun stats n hrest => ⟨_, .ifs htok hthen hcondition hbranches hrest⟩,
      fun hrest => .afterIf htok hthen hcondition hbranches hrest⟩

theorem explained_while {tok : ScriptToken} (htok : Commands tok "WHILE") (tokens : List ScriptToken) :
    Explained (Extends room (tok :: tokens)) (CutOff (room + 1) false (tok :: tokens))
      (parseWHILE (parseBlock room) (depthAt room) tokens) := by
  refine (explained_parseCondition (depthAt room) "DO" tokens).bind ?_ ?_
  · rintro ⟨conditiontokens, do_, rest, rfl, hdo, hcondition⟩
    exact .here (.condition (p := ("WHILE", "DO")) (by simp [conditionCommands]) htok hdo hcondition)
  · rintro ⟨condition, tokens'⟩ ⟨conditiontokens, do_, rfl, hdo, hcondition⟩
    rcases eq_or_ne tokens' [] with rfl | hne
    · exact fun _ => .here (.afterDo htok hdo hcondition)
    -- nothing is asked of the last token here, which is why a loop is read without its `ENDWHILE`
    obtain ⟨body, last, hscan⟩ := exists_loop hne
    obtain ⟨rest, rfl, hloop⟩ := getEndWHILE_eq_concat_iff.mp hscan
    have hdrop : (body ++ last :: rest).drop (body.length + 1) = rest := by simp
    simp only [hscan, List.dropLast_concat, List.length_append, List.length_singleton, hdrop]
    rw [if_neg (by simp)]
    refine (hblock body).bind (.inLoop htok hdo hcondition hloop) ?_
    rintro action ⟨m, hbody⟩
    exact ⟨fun stats n hrest => ⟨_, .whiles htok hdo hcondition hloop hbody hrest⟩,
      fun hrest => .afterLoop htok hdo hcondition hloop hbody hrest⟩

theorem explained_statement (tok : ScriptToken) (tokens : List ScriptToken) :
    Explained (Extends room (tok :: tokens)) (CutOff (room + 1) false (tok :: tokens))
      (parseStatement (parseBlock room) (depthAt room) (tok :: tokens)) := by
  by_cases hif : Commands tok "IF"
  · rw [parseStatement_if hif]
    exact explained_if hblock hif tokens
  by_cases hwhile : Commands tok "WHILE"
  · rw [parseStatement_while hwhile]
    exact explained_while hblock hwhile tokens
  · have hplain : Explained (ReadsPlain (depthAt room) (tok :: tokens)) (Unchecked (room + 1) false (tok :: tokens))
        (parseStatement (parseBlock room) (depthAt room) (tok :: tokens)) := explained_plain ⟨hif, hwhile⟩ tokens
    cases hstat : parseStatement (parseBlock room) (depthAt room) (tok :: tokens) with
    | error e =>
      rw [hstat] at hplain
      exact fun he => .here (hplain he)
    | ok p =>
      rw [hstat] at hplain
      obtain ⟨front, exptokens, make, exp, htokens, hopens, hupto, hexp, hmake⟩ := hplain
      rw [Explained, Extends, htokens, hmake]
      exact ⟨fun stats n hrest => ⟨n, .plain hopens hupto hexp hrest⟩, .afterPlain hopens hupto hexp⟩

end Explain

/-- **Every outcome of the parser is explained**: the statements are read, and every exception but a
`MinimaParseException` comes from a place that it does not check. -/
theorem explained_block (room : ℕ) (tokens : List ScriptToken) :
    Explained (fun stats => ∃ n, Read room tokens (.block stats) [] n) (CutOff room false tokens)
      (parseBlock room tokens) := by
  induction room generalizing tokens with
  | zero => exact explained_parse _
  | succ room ih =>
    -- inside one block the statements are read from the front
    induction hlen : tokens.length using Nat.strong_induction_on generalizing tokens with
    | h len ihlen =>
      subst hlen
      cases tokens with
      | nil => exact ⟨0, .nil⟩
      | cons tok tokens =>
        rw [parseBlock_cons]
        have hstatement := explained_statement ih tok tokens
        cases hstat : parseStatement (parseBlock room) (depthAt room) (tok :: tokens) with
        | error e => rw [hstat] at hstatement; exact hstatement
        | ok p =>
          obtain ⟨stat, rest⟩ := p
          rw [hstat] at hstatement
          refine (ihlen _ (parseStatement_consumes _ _ _ hstat) rest rfl).bind hstatement.2 ?_
          rintro stats ⟨n, hrest⟩
          exact hstatement.1 stats n hrest

/-! ## What is read is well nested -/

/-- **A statement without a block** is spelled by its tokens. -/
theorem Opens.spells {depth : ℕ} {front exptokens : List ScriptToken} {make : Expression → Statement}
    {exp : Expression} (hopens : Opens depth front make) (hexp : getExpression exptokens depth = .ok exp) :
    Spells depth (front ++ exptokens) (make exp) := by
  cases hopens with
  | letVariable hcommand hvar heq => exact .letVariable hcommand hvar heq hexp
  | letArray hfront heq hpos hexps =>
    simp only [List.cons_append, List.append_assoc, List.nil_append]
    exact .letArray hfront.command hfront.opening hpos hexps hfront.closing heq.2 hexp
  | expression hp hcommand => exact .expression hp hcommand hexp

theorem Divides.separates {depth : ℕ} {last : ScriptToken} {between : List ScriptToken} {condition : Expression}
    (h : Divides depth last between condition) : Separates depth (last :: between) condition := by
  cases h with
  | «else» htok => exact .else htok
  | elseIf htok hthen hcondition => exact .elseIf htok hcondition hthen.2

theorem unclosed_eq_zero {last : ScriptToken} {command : String} :
    unclosed last command = 0 ↔ isCommand last command = true := by
  unfold unclosed
  split_ifs with h <;> simp [h]

/-- **A part that is read with the end of every block** is well nested. -/
theorem Read.wellNested {room n : ℕ} {tokens rest : List ScriptToken} {part : Part}
    (h : Read room tokens part rest n) (hn : n = 0) :
    ∃ used, tokens = used ++ rest ∧ WellNested room used part := by
  induction h with
  | nil => exact ⟨[], rfl, .nil⟩
  | plain hopens _ hexp _ ih =>
    obtain ⟨used, rfl, hrest⟩ := ih hn
    exact ⟨_, by simp, .plain (hopens.spells hexp) hrest⟩
  | ifs htok hthen hcondition _ _ ihbranches ih =>
    obtain ⟨used, rfl, hbranches⟩ := ihbranches (by omega)
    obtain ⟨used', rfl, hrest⟩ := ih (by omega)
    exact ⟨_, by simp, .ifs htok hcondition hthen.2 hbranches hrest⟩
  | @whiles room m n tok do_ last conditiontokens body rest condition action stats htok hdo hcondition _ _ _ ihbody
      ih =>
    obtain ⟨used, rfl, hbody⟩ := ihbody (by omega)
    obtain ⟨used', rfl, hrest⟩ := ih (by omega)
    have hlast : unclosed last "ENDWHILE" = 0 := by omega
    exact ⟨_, by simp, .whiles htok hcondition hdo.2 hbody (unclosed_eq_zero.mp hlast) hrest⟩
  | @endIf room m last body rest condition action _ _ _ ih =>
    obtain ⟨used, rfl, hbody⟩ := ih (by omega)
    have hlast : unclosed last "ENDIF" = 0 := by omega
    exact ⟨_, by simp, .endIf hbody (unclosed_eq_zero.mp hlast)⟩
  | next _ _ hdivides _ ihbody ih =>
    obtain ⟨used, rfl, hbody⟩ := ihbody (by omega)
    obtain ⟨used', rfl, htokens⟩ := ih (by omega)
    exact ⟨_, by simp, .next hbody hdivides.separates htokens⟩

/-- **A block that is read without its end** is one that no token ends. -/
theorem Read.endings {room n : ℕ} {tokens rest : List ScriptToken} {part : Part}
    (h : Read room tokens part rest n) :
    ∃ a b, a + b = n ∧ endings 1 0 tokens + a = part.blocks 1 0 + endings 1 0 rest ∧
      endings 0 1 tokens + b ≤ part.blocks 0 1 + a + endings 0 1 rest := by
  induction h with
  | nil => exact ⟨0, 0, rfl, rfl, le_rfl⟩
  | plain hopens _ hexp _ ih =>
    have hspells := hopens.spells hexp
    obtain ⟨a, b, hn, hloops, hifs⟩ := ih
    refine ⟨a, b, hn, ?_, ?_⟩
    all_goals
      rw [← List.append_assoc, endings_append, hspells.endings.1, Part.blocks, listBlocks, hspells.endings.2]
      simpa [Part.blocks] using by assumption
  | ifs htok hthen hcondition _ _ ihbranches ih =>
    obtain ⟨a, b, hm, hloops, hifs⟩ := ihbranches
    obtain ⟨a', b', hn, hloops', hifs'⟩ := ih
    refine ⟨a + a', b + b', by omega, ?_, ?_⟩
    all_goals
      rw [endings_cons, endings_append, endings_cons, ending_of_commands htok (by decide),
        endings_of_noEnd (getExpression_noEnd hcondition), ending_of_token hthen.2 (by decide)]
      simp only [Part.blocks, listBlocks, blocks, endings_nil] at *
      omega
  | @whiles room m n tok do_ last conditiontokens body rest condition action stats htok hdo hcondition _ _ _ ihbody
      ih =>
    obtain ⟨a, b, hm, hloops, hifs⟩ := ihbody
    obtain ⟨a', b', hn, hloops', hifs'⟩ := ih
    -- a loop whose last token is another one has an end less, and that token may be an `ENDIF` too many
    refine ⟨unclosed last "ENDWHILE" + a + a', b + b', by omega, ?_, ?_⟩
    all_goals
      rw [endings_cons, endings_append, endings_cons, endings_append, endings_cons,
        ending_of_commands htok (by decide), endings_of_noEnd (getExpression_noEnd hcondition),
        ending_of_token hdo.2 (by decide)]
      simp only [Part.blocks, listBlocks, blocks, endings_nil, ending, unclosed] at *
      split_ifs <;> omega
  -- a token with the text `ENDIF` ends an `IF`, or nothing
  | @endIf room m last body rest condition action _ _ hlast ih =>
    obtain ⟨a, b, hm, hloops, hifs⟩ := ih
    have hwhile : isCommand last "ENDWHILE" = false := by
      rw [HasText] at hlast
      rw [isCommand, hlast]
      simp only [Bool.and_eq_false_imp]
      exact fun _ => by decide
    have hending : ∀ w i, ending w i last + i * unclosed last "ENDIF" = i := by
      intro w i
      rw [ending, hwhile, if_neg Bool.false_ne_true, unclosed]
      split_ifs <;> simp
    have hloop := hending 1 0
    have hif := hending 0 1
    refine ⟨a, unclosed last "ENDIF" + b, by omega, ?_, ?_⟩
    all_goals
      rw [endings_append, endings_cons]
      simp only [Part.blocks, branchBlocks, endings_nil] at *
      omega
  | @next room m n last body between tokens rest condition elseCondition action branches _ _ hdivides _ ihbody ih =>
    obtain ⟨a, b, hm, hloops, hifs⟩ := ihbody
    obtain ⟨a', b', hn, hloops', hifs'⟩ := ih
    have hbetween : ∀ w i, ending w i last + StatementParser.endings w i between = 0 := fun w i => by
      rw [← endings_cons, hdivides.separates.endings]
    have hloop := hbetween 1 0
    have hif := hbetween 0 1
    refine ⟨a + a', b + b', by omega, ?_, ?_⟩
    all_goals
      rw [endings_append, endings_cons, endings_append]
      simp only [Part.blocks, branchBlocks, endings_nil] at *
      omega

/-- Tokens that are well nested are not read with a block without its end. -/
theorem Read.eq_zero {room n : ℕ} {tokens : List ScriptToken} {part : Part}
    (h : Read room tokens part [] n) (hpart : WellNested room tokens part) : n = 0 := by
  obtain ⟨a, b, hn, hloops, hifs⟩ := h.endings
  rw [hpart.endings_eq] at hloops hifs
  rw [endings_nil] at hloops hifs
  omega

/-- **When the parser is right.** It throws a `MinimaParseException`, or the tokens spell the statements that
it returns, if and only if the tokens come to no place that is not checked and do not read as statements with
a block without its end. -/
theorem parseTokens_wellNested_iff (zTokens : List ScriptToken) (zStackDepth : ℕ) :
    ((∃ what, parseTokens zTokens zStackDepth = .error (.parse what)) ∨
      ∃ stats, parseTokens zTokens zStackDepth = .ok stats ∧
        WellNested (maxStackDepth - zStackDepth) zTokens (.block stats)) ↔
    ¬ CutOff (maxStackDepth - zStackDepth) false zTokens ∧
      ¬ ∃ stats n, 0 < n ∧ Read (maxStackDepth - zStackDepth) zTokens (.block stats) [] n := by
  rw [parseTokens]
  generalize maxStackDepth - zStackDepth = room
  constructor
  · rintro (⟨what, hparse⟩ | ⟨stats, hparse, hnested⟩)
    · refine ⟨fun hcut => ?_, ?_⟩
      · obtain ⟨e, hbreaks, he⟩ := hcut.breaks
        rw [hparse, Except.error.injEq] at hbreaks
        rw [← hbreaks] at he
        cases he
      · rintro ⟨stats, n, -, hread⟩
        rw [hread.runs.1] at hparse
        cases hparse
    · refine ⟨fun hcut => ?_, ?_⟩
      · obtain ⟨e, hbreaks, he⟩ := hcut.breaks
        rw [hparse] at hbreaks
        cases hbreaks
      · rintro ⟨stats', n, hn, hread⟩
        have hstats := hread.runs.1
        rw [hparse, Except.ok.injEq] at hstats
        subst hstats
        exact hn.ne' (hread.eq_zero hnested)
  · rintro ⟨hcut, hread⟩
    have hexplained := explained_block room zTokens
    cases hparse : parseBlock room zTokens with
    | ok stats =>
      rw [hparse] at hexplained
      obtain ⟨n, hn⟩ := hexplained
      have hzero : n = 0 := Nat.eq_zero_of_not_pos fun hpos => hread ⟨stats, n, hpos, hn⟩
      obtain ⟨used, hused, hnested⟩ := hn.wellNested hzero
      rw [List.append_nil] at hused
      exact .inr ⟨stats, rfl, hused ▸ hnested⟩
    | error e =>
      rw [hparse] at hexplained
      cases e with
      | parse what => exact .inl ⟨what, rfl⟩
      | execution what => exact absurd (hexplained rfl) hcut
      | standard what => exact absurd (hexplained rfl) hcut
      | undefined what => exact absurd (hexplained rfl) hcut

/-- The tokens of a loop that ends with the end of an `IF`. -/
def unterminatedLoop : List ScriptToken :=
  [⟨.command, MiniNumber.ascii "WHILE"⟩, ⟨.true, MiniNumber.ascii "TRUE"⟩,
    ⟨.command, MiniNumber.ascii "DO"⟩, ⟨.command, MiniNumber.ascii "RETURN"⟩,
    ⟨.true, MiniNumber.ascii "TRUE"⟩, ⟨.command, MiniNumber.ascii "ENDIF"⟩]

/-- The loop is accepted, although nothing ends it. -/
theorem not_parseTokens_wellNested :
    ScriptTokenizer.tokenize (MiniNumber.ascii "WHILE TRUE DO RETURN TRUE ENDIF") = .ok unterminatedLoop ∧
      ¬ ((∃ what, parseTokens unterminatedLoop 0 = .error (.parse what)) ∨
        ∃ stats, parseTokens unterminatedLoop 0 = .ok stats ∧
          WellNested maxStackDepth unterminatedLoop (.block stats)) := by
  refine ⟨by decide +kernel, ?_⟩
  have hparse : (parseTokens unterminatedLoop 0).map (listBlocks 1 0) = .ok 1 := by decide +kernel
  rintro (⟨what, herror⟩ | ⟨stats, hok, hnested⟩)
  · rw [herror] at hparse
    cases hparse
  · have hloops : listBlocks 1 0 stats = 1 := by
      rw [hok] at hparse
      exact Except.ok.inj hparse
    have hends := hnested.endings_eq (w := 1) (i := 0)
    rw [Part.blocks, hloops] at hends
    exact absurd hends (by decide)

end Minima.Kissvm.StatementParser
