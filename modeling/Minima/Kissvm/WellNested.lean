import Minima.Kissvm.StatementParser

/-! # Well nested statements

A list of tokens spells a list of statements when they follow each other in it without a gap, every `IF`
with its own `ENDIF` and every `WHILE` with its own `ENDWHILE`.

* **`WellNested`** — the statements that a list of tokens spells.
* **`WellNested.endings_eq`** — each of their blocks is ended once. -/

namespace Minima.Kissvm.StatementParser

open ExpressionParser (bind_eq_ok getExpression)

/-! ## What is in an expression -/

/-- The token ends a block. -/
def endsBlock (tok : ScriptToken) : Prop := isCommand tok "ENDIF" = true ∨ isCommand tok "ENDWHILE" = true

/-- The texts of the tokens that end a block. -/
def endTexts : List Text := [MiniNumber.ascii "ENDIF", MiniNumber.ascii "ENDWHILE"]

theorem endsBlock_iff {tok : ScriptToken} :
    endsBlock tok ↔ tok.tokenType = .command ∧ tok.token ∈ endTexts := by
  simp only [endsBlock, isCommand, endTexts, Bool.and_eq_true, decide_eq_true_eq, beq_iff_eq,
    List.mem_cons, List.not_mem_nil, or_false]
  tauto

/-- None of the tokens in front of the rest ends a block. -/
def NoEndBefore (rest tokens : List ScriptToken) : Prop :=
  ∃ used, tokens = used ++ rest ∧ ∀ tok ∈ used, ¬ endsBlock tok

/-- A parser takes tokens off the front, none of which ends a block. -/
def TakesNoEnd {α : Type} (p : Parse α) : Prop :=
  ∀ tokens x rest, p tokens = .ok (x, rest) → NoEndBefore rest tokens

theorem NoEndBefore.refl (rest : List ScriptToken) : NoEndBefore rest rest := ⟨[], rfl, by simp⟩

theorem NoEndBefore.cons {tok : ScriptToken} {tokens rest : List ScriptToken} (htok : ¬ endsBlock tok)
    (h : NoEndBefore rest tokens) : NoEndBefore rest (tok :: tokens) := by
  obtain ⟨used, rfl, hused⟩ := h
  exact ⟨tok :: used, rfl, List.forall_mem_cons.mpr ⟨htok, hused⟩⟩

theorem NoEndBefore.trans {tokens tokens' rest : List ScriptToken} (h : NoEndBefore tokens' tokens)
    (h' : NoEndBefore rest tokens') : NoEndBefore rest tokens := by
  obtain ⟨used, rfl, hused⟩ := h
  obtain ⟨used', rfl, hused'⟩ := h'
  exact ⟨used ++ used', by simp, List.forall_mem_append.mpr ⟨hused, hused'⟩⟩

theorem not_endsBlock_of_tokenType {tok : ScriptToken} (h : tok.tokenType ≠ .command) : ¬ endsBlock tok :=
  fun hends => h (endsBlock_iff.mp hends).1

theorem not_endsBlock_of_token {tok : ScriptToken} (h : tok.token ∉ endTexts) : ¬ endsBlock tok :=
  fun hends => h (endsBlock_iff.mp hends).2

section Expressions

open ExpressionParser

theorem operatorLoop_takesNoEnd {operators : Operators} {operand : Parse Expression}
    (hoperators : ∀ text ∈ endTexts, operators.lookup text = none) (hoperand : TakesNoEnd operand)
    (fuel : ℕ) (exp : Expression) : TakesNoEnd (operatorLoop operators operand fuel exp) := by
  intro tokens x rest h
  fun_induction operatorLoop operators operand fuel exp tokens with
  | case1 => cases h; exact .refl _
  | case2 => cases h; exact .refl _
  | case3 exp fuel tok tokens combine hlookup ih =>
    obtain ⟨⟨right, rest'⟩, hright, hloop⟩ := bind_eq_ok.mp h
    refine .cons (not_endsBlock_of_token fun hmem => ?_) ((hoperand _ _ _ hright).trans (ih right rest' hloop))
    rw [hoperators _ hmem] at hlookup
    cases hlookup
  | case4 => cases h; exact .refl _

theorem level_takesNoEnd {operators : Operators} {operand : Parse Expression}
    (hoperators : ∀ text ∈ endTexts, operators.lookup text = none) (hoperand : TakesNoEnd operand) :
    TakesNoEnd (level operators operand) := by
  intro tokens x rest h
  obtain ⟨⟨exp, rest'⟩, hexp, hloop⟩ := bind_eq_ok.mp h
  exact (hoperand _ _ _ hexp).trans (operatorLoop_takesNoEnd hoperators hoperand _ _ _ _ _ hloop)

theorem unary_takesNoEnd (operator : Expression → Expression) {unit : Parse Expression}
    (hunit : TakesNoEnd unit) : TakesNoEnd (unary operator unit) := by
  intro tokens x rest h
  obtain ⟨⟨e, rest'⟩, he, hret⟩ := bind_eq_ok.mp h
  cases hret
  exact hunit _ _ _ he

theorem getPrimary_takesNoEnd {unit : Parse Expression} (hunit : TakesNoEnd unit) :
    TakesNoEnd (getPrimary unit) := by
  intro tokens x rest h
  cases tokens with
  | nil => cases h
  | cons tok tokens =>
    rw [getPrimary] at h
    split_ifs at h with hnot hneg htilde
    · exact .cons (not_endsBlock_of_token (hnot ▸ by decide)) (unary_takesNoEnd _ hunit _ _ _ h)
    · exact .cons (not_endsBlock_of_token (hneg ▸ by decide)) (unary_takesNoEnd _ hunit _ _ _ h)
    · exact .cons (not_endsBlock_of_token (htilde ▸ by decide)) (unary_takesNoEnd _ hunit _ _ _ h)
    · exact hunit _ _ _ h

theorem functionParams_takesNoEnd {param : Parse Expression} (hparam : TakesNoEnd param) (left : ℕ) :
    TakesNoEnd (functionParams param left) := by
  induction left with
  | zero =>
    intro tokens x rest h
    cases tokens with
    | nil => cases h
    | cons tok tokens =>
      unfold functionParams at h
      split_ifs at h with hclose
      · cases h
        exact .cons (not_endsBlock_of_tokenType (by rw [hclose]; decide)) (.refl _)
      · obtain ⟨⟨e, rest'⟩, he, hret⟩ := bind_eq_ok.mp h
        cases hret
  | succ left ih =>
    intro tokens x rest h
    cases tokens with
    | nil => cases h
    | cons tok tokens =>
      unfold functionParams at h
      split_ifs at h with hclose
      · cases h
        exact .cons (not_endsBlock_of_tokenType (by rw [hclose]; decide)) (.refl _)
      · obtain ⟨⟨e, rest'⟩, he, hrest⟩ := bind_eq_ok.mp h
        obtain ⟨⟨es, rest''⟩, hes, hret⟩ := bind_eq_ok.mp hrest
        cases hret
        exact (hparam _ _ _ he).trans (ih _ _ _ hes)

theorem getFunction_takesNoEnd {param : Parse Expression} (hparam : TakesNoEnd param)
    (f : MinimaFunction) : TakesNoEnd (getFunction param f) := by
  intro tokens x rest h
  cases tokens with
  | nil => cases h
  | cons bracket tokens =>
    rw [getFunction] at h
    split_ifs at h with hopen
    obtain ⟨⟨params, rest'⟩, hparams, hcheck⟩ := bind_eq_ok.mp h
    obtain ⟨_, _, hret⟩ := bind_eq_ok.mp hcheck
    cases hret
    have hbracket : bracket.tokenType = .openBracket := by simpa using hopen
    exact .cons (not_endsBlock_of_tokenType (by rw [hbracket]; decide))
      (functionParams_takesNoEnd hparam _ _ _ _ hparams)

theorem getBracketed_takesNoEnd {inner : Parse Expression} (hinner : TakesNoEnd inner) :
    TakesNoEnd (getBracketed inner) := by
  intro tokens x rest h
  obtain ⟨⟨e, rest'⟩, he, hclose⟩ := bind_eq_ok.mp h
  cases rest' with
  | nil => cases hclose
  | cons closebracket rest' =>
    simp only at hclose
    split_ifs at hclose with htype
    cases hclose
    have hbracket : closebracket.tokenType = .closeBracket := by simpa using htype
    exact (hinner _ _ _ he).trans (.cons (not_endsBlock_of_tokenType (by rw [hbracket]; decide)) (.refl _))

/-- The text of a token that ends a block spells no number. -/
theorem ofText_endTexts : ∀ text ∈ endTexts, (MiniNumber.ofText text).toOption = none := by
  decide +kernel

theorem getBaseUnit_takesNoEnd {inner : Parse Expression} (hinner : TakesNoEnd inner) :
    TakesNoEnd (getBaseUnit inner) := by
  intro tokens x rest h
  cases tokens with
  | nil => cases h
  | cons tok tokens =>
    unfold getBaseUnit at h
    dsimp only at h
    split_ifs at h with hvalue hminus
    · obtain ⟨v, _, hret⟩ := bind_eq_ok.mp h
      cases hret
      exact .cons (not_endsBlock_of_tokenType (by rw [hvalue]; decide)) (.refl _)
    · cases tokens with
      | nil => cases h
      | cons num tokens =>
        obtain ⟨n, hn, hmult⟩ := bind_eq_ok.mp h
        obtain ⟨numv, _, hret⟩ := bind_eq_ok.mp hmult
        cases hret
        -- behind a minus sign the token may be of any type, but it spells a number
        refine .cons (not_endsBlock_of_token (hminus ▸ by decide)) (.cons ?_ (.refl _))
        refine not_endsBlock_of_token fun hmem => ?_
        have hnone := ofText_endTexts _ hmem
        cases hparse : MiniNumber.ofText num.token with
        | ok y => rw [hparse] at hnone; cases hnone
        | error e => rw [hparse] at hn; cases e <;> cases hn
    · split at h
      · cases h
        exact .cons (not_endsBlock_of_tokenType (by simp [*])) (.refl _)
      · cases h
        exact .cons (not_endsBlock_of_tokenType (by simp [*])) (.refl _)
      · cases h
        exact .cons (not_endsBlock_of_tokenType (by simp [*])) (.refl _)
      · cases h
        exact .cons (not_endsBlock_of_tokenType (by simp [*])) (.refl _)
      · cases hf : MinimaFunction.getFunction tok.token with
        | none => rw [hf] at h; cases h
        | some f =>
          rw [hf] at h
          exact .cons (not_endsBlock_of_tokenType (by simp [*])) (getFunction_takesNoEnd hinner f _ _ _ h)
      · exact .cons (not_endsBlock_of_tokenType (by simp [*])) (getBracketed_takesNoEnd hinner _ _ _ h)
      · cases h

/-- **An expression ends no block.** -/
theorem parse_takesNoEnd (room : ℕ) : TakesNoEnd (ExpressionParser.parse room) := by
  induction room with
  | zero => intro tokens x rest h; cases h
  | succ room ih =>
    apply level_takesNoEnd (by decide)
    apply level_takesNoEnd (by decide)
    apply level_takesNoEnd (by decide)
    apply level_takesNoEnd (by decide)
    apply level_takesNoEnd (by decide)
    -- the levels of operators, from the outside in, end at the units
    apply getPrimary_takesNoEnd
    exact getBaseUnit_takesNoEnd ih

theorem getExpression_noEnd {tokens : List ScriptToken} {depth : ℕ} {exp : Expression}
    (h : getExpression tokens depth = .ok exp) : ∀ tok ∈ tokens, ¬ endsBlock tok := by
  unfold getExpression at h
  split_ifs at h
  obtain ⟨⟨e, rest⟩, he, hrest⟩ := bind_eq_ok.mp h
  obtain ⟨used, rfl, hused⟩ := parse_takesNoEnd _ _ _ _ he
  dsimp only at hrest
  split_ifs at hrest with hempty
  rwa [List.isEmpty_iff.mp hempty, List.append_nil]

theorem arrayPositions_noEnd {fuel depth : ℕ} {tokens : List ScriptToken} {exps : List Expression}
    (hfuel : tokens.length ≤ fuel) (h : arrayPositions depth fuel tokens = .ok exps) :
    ∀ tok ∈ tokens, ¬ endsBlock tok := by
  induction fuel generalizing tokens exps with
  | zero => simp [List.length_eq_zero_iff.mp (Nat.le_zero.mp hfuel)]
  | succ fuel ih =>
    cases tokens with
    | nil => simp
    | cons tok tokens =>
      rw [arrayPositions] at h
      · obtain ⟨⟨exp, rest⟩, hexp, hmore⟩ := bind_eq_ok.mp h
        obtain ⟨exps', hexps', -⟩ := bind_eq_ok.mp hmore
        have hlen := parse_consumes _ _ _ _ hexp
        obtain ⟨used, hused, hno⟩ := parse_takesNoEnd _ _ _ _ hexp
        rw [hused]
        exact List.forall_mem_append.mpr ⟨hno, ih (by omega) hexps'⟩
      · exact List.cons_ne_nil _ _

end Expressions

/-! ## Well nested statements -/

/-- The token is this command, in either case. -/
def Commands (tok : ScriptToken) (command : String) : Prop :=
  tok.tokenType = .command ∧ equalsIgnoreCase tok.token command = true

/-- The commands with an expression and nothing else. -/
def expressionCommands : List (String × (Expression → Statement)) :=
  [("EXEC", .exec), ("MAST", .mast), ("ASSERT", .assert), ("RETURN", .returns)]

/-- The statements without a block that a list of tokens spells, at a stack depth. -/
inductive Spells (depth : ℕ) : List ScriptToken → Statement → Prop
  | letVariable {command var eq : ScriptToken} {exptokens : List ScriptToken} {exp : Expression}
      (hcommand : Commands command "LET") (hvar : var.tokenType = .variable)
      (heq : eq.token = MiniNumber.ascii "=") (hexp : getExpression exptokens depth = .ok exp) :
      Spells depth (command :: var :: eq :: exptokens) (.letVariable var.token exp)
  | letArray {command opening closing eq : ScriptToken} {arraypos exptokens : List ScriptToken}
      {exps : List Expression} {exp : Expression} (hcommand : Commands command "LET")
      (hopen : opening.tokenType = .openBracket) (hpos : arraypos ≠ [])
      (hexps : arrayPositions depth arraypos.length arraypos = .ok exps)
      (hclose : closing.tokenType = .closeBracket) (heq : eq.token = MiniNumber.ascii "=")
      (hexp : getExpression exptokens depth = .ok exp) :
      Spells depth (command :: opening :: (arraypos ++ closing :: eq :: exptokens)) (.letArray exps exp)
  | expression {command : ScriptToken} {exptokens : List ScriptToken} {exp : Expression}
      {p : String × (Expression → Statement)} (hp : p ∈ expressionCommands)
      (hcommand : Commands command p.1) (hexp : getExpression exptokens depth = .ok exp) :
      Spells depth (command :: exptokens) (p.2 exp)

/-- What stands between two blocks of an `IF`, and the condition of the second one. -/
inductive Separates (depth : ℕ) : List ScriptToken → Expression → Prop
  | else {tok : ScriptToken} (htok : tok.token = MiniNumber.ascii "ELSE") :
      Separates depth [tok] (.constant (.boolean true))
  | elseIf {tok then_ : ScriptToken} {conditiontokens : List ScriptToken} {condition : Expression}
      (htok : tok.token = MiniNumber.ascii "ELSEIF")
      (hcondition : getExpression conditiontokens depth = .ok condition)
      (hthen : then_.token = MiniNumber.ascii "THEN") :
      Separates depth (tok :: (conditiontokens ++ [then_])) condition

/-- A part of a script: statements, or the blocks of an `IF` behind its first condition. -/
inductive Part where
  | block (stats : List Statement)
  | branches (condition : Expression) (list : List (Expression × List Statement))

/-- The stack depth of a block with `room + 1` levels to go. -/
def depthAt (room : ℕ) : ℕ := maxStackDepth - room

/-- **The part that a list of tokens spells.** Every token stands in one place: in a statement without a
block, in a condition, in a block, or as the command that opens, divides or ends one. -/
inductive WellNested : ℕ → List ScriptToken → Part → Prop
  | nil {room : ℕ} : WellNested (room + 1) [] (.block [])
  | plain {room : ℕ} {used rest : List ScriptToken} {stat : Statement} {stats : List Statement}
      (hstat : Spells (depthAt room) used stat) (hrest : WellNested (room + 1) rest (.block stats)) :
      WellNested (room + 1) (used ++ rest) (.block (stat :: stats))
  | ifs {room : ℕ} {command then_ : ScriptToken} {conditiontokens tokens rest : List ScriptToken}
      {condition : Expression} {branches : List (Expression × List Statement)} {stats : List Statement}
      (hcommand : Commands command "IF")
      (hcondition : getExpression conditiontokens (depthAt room) = .ok condition)
      (hthen : then_.token = MiniNumber.ascii "THEN")
      (hbranches : WellNested (room + 1) tokens (.branches condition branches))
      (hrest : WellNested (room + 1) rest (.block stats)) :
      WellNested (room + 1) (command :: (conditiontokens ++ then_ :: (tokens ++ rest)))
        (.block (.ifs branches :: stats))
  | whiles {room : ℕ} {command do_ endwhile : ScriptToken} {conditiontokens body rest : List ScriptToken}
      {condition : Expression} {action stats : List Statement} (hcommand : Commands command "WHILE")
      (hcondition : getExpression conditiontokens (depthAt room) = .ok condition)
      (hdo : do_.token = MiniNumber.ascii "DO") (hbody : WellNested room body (.block action))
      (hend : isCommand endwhile "ENDWHILE" = true) (hrest : WellNested (room + 1) rest (.block stats)) :
      WellNested (room + 1) (command :: (conditiontokens ++ do_ :: (body ++ endwhile :: rest)))
        (.block (.whiles condition action :: stats))
  | endIf {room : ℕ} {endif : ScriptToken} {body : List ScriptToken} {condition : Expression}
      {action : List Statement} (hbody : WellNested room body (.block action))
      (hend : isCommand endif "ENDIF" = true) :
      WellNested (room + 1) (body ++ [endif]) (.branches condition [(condition, action)])
  | next {room : ℕ} {body separator tokens : List ScriptToken} {condition elseCondition : Expression}
      {action : List Statement} {branches : List (Expression × List Statement)}
      (hbody : WellNested room body (.block action))
      (hseparator : Separates (depthAt room) separator elseCondition)
      (htokens : WellNested (room + 1) tokens (.branches elseCondition branches)) :
      WellNested (room + 1) (body ++ (separator ++ tokens)) (.branches condition ((condition, action) :: branches))

/-! ## Counting the ends of blocks

A well nested part has an `ENDWHILE` for each of its loops and an `ENDIF` for each `IF`. What is read without
the end of a block has fewer of them than it has blocks. -/

mutual

/-- The number of blocks in a statement, `w` for every loop and `i` for every `IF`. -/
def blocks (w i : ℕ) : Statement → ℕ
  | .ifs conditions => i + branchBlocks w i conditions
  | .whiles _ zCodeBlock => w + listBlocks w i zCodeBlock
  | _ => 0

/-- The number of blocks in a list of statements. -/
def listBlocks (w i : ℕ) : List Statement → ℕ
  | [] => 0
  | stat :: stats => blocks w i stat + listBlocks w i stats

/-- The number of blocks in the branches of an `IF`. -/
def branchBlocks (w i : ℕ) : List (Expression × List Statement) → ℕ
  | [] => 0
  | (_, action) :: branches => listBlocks w i action + branchBlocks w i branches

end

/-- The number of blocks that end in a part. -/
def Part.blocks (w i : ℕ) : Part → ℕ
  | .block stats => listBlocks w i stats
  | .branches _ list => i + branchBlocks w i list

/-- What a token ends. -/
def ending (w i : ℕ) (tok : ScriptToken) : ℕ :=
  if isCommand tok "ENDWHILE" then w else if isCommand tok "ENDIF" then i else 0

/-- What a list of tokens ends. -/
def endings (w i : ℕ) (tokens : List ScriptToken) : ℕ := (tokens.map (ending w i)).sum

section Count

variable {w i : ℕ}

@[simp] theorem endings_nil : endings w i [] = 0 := rfl

@[simp] theorem endings_cons (tok : ScriptToken) (tokens : List ScriptToken) :
    endings w i (tok :: tokens) = ending w i tok + endings w i tokens := by
  simp [endings]

@[simp] theorem endings_append (tokens tokens' : List ScriptToken) :
    endings w i (tokens ++ tokens') = endings w i tokens + endings w i tokens' := by
  simp [endings]

theorem ending_of_not_endsBlock {tok : ScriptToken} (h : ¬ endsBlock tok) : ending w i tok = 0 := by
  rw [ending, if_neg fun hend => h (.inr hend), if_neg fun hend => h (.inl hend)]

theorem endings_of_noEnd {tokens : List ScriptToken} (h : ∀ tok ∈ tokens, ¬ endsBlock tok) :
    endings w i tokens = 0 := by
  rw [endings, List.sum_eq_zero_iff]
  intro n hn
  obtain ⟨tok, htok, rfl⟩ := List.mem_map.mp hn
  exact ending_of_not_endsBlock (h tok htok)

theorem ending_of_token {tok : ScriptToken} {text : Text} (htext : tok.token = text)
    (h : text ∉ endTexts) : ending w i tok = 0 :=
  ending_of_not_endsBlock (not_endsBlock_of_token (htext ▸ h))

/-- A command that opens a statement ends no block. -/
theorem ending_of_commands {tok : ScriptToken} {command : String} (h : Commands tok command)
    (hends : ∀ text ∈ endTexts, equalsIgnoreCase text command = false) : ending w i tok = 0 := by
  refine ending_of_not_endsBlock (not_endsBlock_of_token fun hmem => ?_)
  have hfalse := hends _ hmem
  rw [h.2] at hfalse
  cases hfalse

theorem Spells.endings {depth : ℕ} {tokens : List ScriptToken} {stat : Statement}
    (h : Spells depth tokens stat) : endings w i tokens = 0 ∧ blocks w i stat = 0 := by
  cases h with
  | letVariable hcommand hvar heq hexp =>
    refine ⟨?_, rfl⟩
    rw [endings_cons, endings_cons, endings_cons, ending_of_commands hcommand (by decide),
      ending_of_not_endsBlock (not_endsBlock_of_tokenType (by rw [hvar]; decide)),
      ending_of_token heq (by decide), endings_of_noEnd (getExpression_noEnd hexp)]
  | letArray hcommand hopen _ hexps hclose heq hexp =>
    refine ⟨?_, rfl⟩
    rw [endings_cons, endings_cons, endings_append, endings_cons, endings_cons,
      ending_of_commands hcommand (by decide),
      ending_of_not_endsBlock (not_endsBlock_of_tokenType (by rw [hopen]; decide)),
      endings_of_noEnd (arrayPositions_noEnd le_rfl hexps),
      ending_of_not_endsBlock (not_endsBlock_of_tokenType (by rw [hclose]; decide)),
      ending_of_token heq (by decide), endings_of_noEnd (getExpression_noEnd hexp)]
  | @expression _ _ _ p hp hcommand hexp =>
    have hall : ∀ q ∈ expressionCommands, ∀ text ∈ endTexts, equalsIgnoreCase text q.1 = false := by
      simp only [expressionCommands, List.forall_mem_cons]
      exact ⟨by decide, by decide, by decide, by decide, by simp⟩
    refine ⟨?_, ?_⟩
    · rw [endings_cons, ending_of_commands hcommand (hall p hp), endings_of_noEnd (getExpression_noEnd hexp)]
    · simp only [expressionCommands, List.mem_cons, List.not_mem_nil, or_false] at hp
      rcases hp with rfl | rfl | rfl | rfl <;> rfl

theorem Separates.endings {depth : ℕ} {tokens : List ScriptToken} {condition : Expression}
    (h : Separates depth tokens condition) : endings w i tokens = 0 := by
  cases h with
  | «else» htok => rw [endings_cons, ending_of_token htok (by decide), endings_nil]
  | elseIf htok hcondition hthen =>
    rw [endings_cons, endings_append, endings_cons, ending_of_token htok (by decide),
      endings_of_noEnd (getExpression_noEnd hcondition), ending_of_token hthen (by decide), endings_nil]

theorem ending_endWhile {tok : ScriptToken} (h : isCommand tok "ENDWHILE" = true) : ending w i tok = w := by
  rw [ending, if_pos h]

theorem ending_endIf {tok : ScriptToken} (h : isCommand tok "ENDIF" = true) : ending w i tok = i := by
  have htoken : tok.token = MiniNumber.ascii "ENDIF" := by
    simp only [isCommand, Bool.and_eq_true, beq_iff_eq] at h
    exact h.2
  have hwhile : isCommand tok "ENDWHILE" = false := by
    rw [isCommand, htoken]
    simp only [Bool.and_eq_false_imp]
    exact fun _ => by decide
  rw [ending, if_neg (by simp [hwhile]), if_pos h]

/-- **A well nested part ends each of its blocks once.** -/
theorem WellNested.endings_eq {room : ℕ} {tokens : List ScriptToken} {part : Part}
    (h : WellNested room tokens part) : endings w i tokens = part.blocks w i := by
  induction h with
  | nil => rfl
  | plain hstat _ ih =>
    rw [endings_append, ih, hstat.endings.1, Part.blocks, Part.blocks, listBlocks, hstat.endings.2]
  | ifs hcommand hcondition hthen _ _ ihbranches ih =>
    rw [endings_cons, endings_append, endings_cons, endings_append, ihbranches, ih,
      ending_of_commands hcommand (by decide), endings_of_noEnd (getExpression_noEnd hcondition),
      ending_of_token hthen (by decide)]
    simp only [Part.blocks, listBlocks, blocks]
    omega
  | whiles hcommand hcondition hdo _ hend _ ihbody ih =>
    rw [endings_cons, endings_append, endings_cons, endings_append, endings_cons, ihbody, ih,
      ending_of_commands hcommand (by decide), endings_of_noEnd (getExpression_noEnd hcondition),
      ending_of_token hdo (by decide), ending_endWhile hend]
    simp only [Part.blocks, listBlocks, blocks]
    omega
  | endIf _ hend ih =>
    rw [endings_append, ih, endings_cons, ending_endIf hend]
    simp only [Part.blocks, branchBlocks, endings_nil]
    omega
  | next _ hseparator _ ihbody ih =>
    rw [endings_append, endings_append, ihbody, ih, hseparator.endings]
    simp only [Part.blocks, branchBlocks]
    omega

end Count

end Minima.Kissvm.StatementParser
