import Minima.Kissvm.StatementParser

/-! # Where the parser cuts its tokens

The scans of `StatementParser` cut a list of tokens at the first token of a kind, or where a block ends. Here
the cuts are described by the tokens in front of them alone.

* **`UpTo`** — what is in front of the first token of a kind.
* **`EndsBlock`** — what is in a block, counting the blocks that are open in it, and the token that ends it
  or is the last of all. -/

namespace Minima.Kissvm.StatementParser

/-! ## The first token of a kind -/

/-- The rest begins at the first token of a kind, if there is one. -/
def UpTo (kind : ScriptToken → Prop) (before rest : List ScriptToken) : Prop :=
  (∀ tok ∈ before, ¬ kind tok) ∧ ∀ tok ∈ rest.head?, kind tok

/-- The token is a command. -/
def IsCommand (tok : ScriptToken) : Prop := tok.tokenType = .command

/-- The token is the operator `=`. -/
def IsEquals (tok : ScriptToken) : Prop := tok.tokenType = .operator ∧ tok.token = MiniNumber.ascii "="

/-- The token has this text. -/
def HasText (text : String) (tok : ScriptToken) : Prop := tok.token = MiniNumber.ascii text

theorem span_eq_iff {p : ScriptToken → Bool} {kind : ScriptToken → Prop}
    (hp : ∀ tok, p tok = true ↔ ¬ kind tok) {tokens before rest : List ScriptToken} :
    tokens.span p = (before, rest) ↔ tokens = before ++ rest ∧ UpTo kind before rest := by
  rw [List.span_eq_takeWhile_dropWhile, Prod.mk.injEq]
  constructor
  · rintro ⟨rfl, rfl⟩
    refine ⟨(List.takeWhile_append_dropWhile).symm, fun tok htok => ?_, fun tok htok => ?_⟩
    · exact (hp tok).mp (List.mem_takeWhile_imp htok)
    · by_contra hkind
      have hfalse := List.head?_dropWhile_not p tokens
      rw [Option.mem_def.mp htok] at hfalse
      exact Bool.noConfusion (((hp tok).mpr hkind).symm.trans hfalse)
  · rintro ⟨rfl, hbefore, hrest⟩
    have hall : ∀ tok ∈ before, p tok = true := fun tok htok => (hp tok).mpr (hbefore tok htok)
    rw [List.takeWhile_append_of_pos hall, List.dropWhile_append_of_pos hall]
    cases rest with
    | nil => simp
    | cons tok rest =>
      have hstop : ¬ p tok = true := fun h => (hp tok).mp h (hrest tok rfl)
      rw [List.takeWhile_cons_of_neg hstop, List.dropWhile_cons_of_neg hstop]
      simp

theorem getTokensToNextCommand_eq_iff {tokens before rest : List ScriptToken} :
    getTokensToNextCommand tokens = (before, rest) ↔ tokens = before ++ rest ∧ UpTo IsCommand before rest :=
  span_eq_iff fun tok => by simp [IsCommand]

theorem getTokensToNextEquals_eq_iff {tokens before rest : List ScriptToken} :
    getTokensToNextEquals tokens = (before, rest) ↔ tokens = before ++ rest ∧ UpTo IsEquals before rest :=
  span_eq_iff fun tok => by
    rw [Bool.not_eq_true', ← Bool.not_eq_true, Bool.and_eq_true, decide_eq_true_eq, beq_iff_eq]
    exact Iff.rfl

theorem getTokensToRequiredCommand_eq_ok {zRequiredToken : String} {tokens before rest : List ScriptToken} :
    getTokensToRequiredCommand zRequiredToken tokens = .ok (before, rest) ↔
      ∃ required, tokens = before ++ required :: rest ∧ (∀ tok ∈ before, ¬ HasText zRequiredToken tok) ∧
        HasText zRequiredToken required := by
  have hspan : ∀ before' rest', tokens.span (fun tok => tok.token != MiniNumber.ascii zRequiredToken) =
      (before', rest') ↔ tokens = before' ++ rest' ∧ UpTo (HasText zRequiredToken) before' rest' :=
    fun _ _ => span_eq_iff fun tok => by simp [HasText]
  unfold getTokensToRequiredCommand
  constructor
  · intro h
    split at h
    · cases h
    · rename_i required rest' heq
      cases h
      obtain ⟨htokens, hbefore, hrest⟩ := (hspan _ _).mp heq
      exact ⟨required, htokens, hbefore, hrest required rfl⟩
  · rintro ⟨required, htokens, hbefore, hrequired⟩
    have heq := (hspan before (required :: rest)).mpr ⟨htokens, hbefore, by simpa using hrequired⟩
    rw [heq]

theorem getTokensToRequiredCommand_eq_error {zRequiredToken : String} {tokens : List ScriptToken}
    {e : ScriptFault} (h : getTokensToRequiredCommand zRequiredToken tokens = .error e) : ∃ what, e = .parse what := by
  unfold getTokensToRequiredCommand at h
  split at h
  · exact ⟨_, (Except.error.inj h).symm⟩
  · cases h

/-! ## The end of a block -/

/-- The blocks that a list of tokens opens and does not end. -/
def openBlocks (opening ending : String) (tokens : List ScriptToken) : ℤ :=
  (tokens.countP fun tok => isCommand tok opening) - (tokens.countP fun tok => isCommand tok ending : ℕ)

/-- **Where a block ends**, in front of the rest: at the first token that stops it outside the blocks in it.
A block that nothing stops goes on to the last token of all. -/
def EndsBlock (opening ending : String) (stops : ScriptToken → Prop) (body : List ScriptToken)
    (last : ScriptToken) (rest : List ScriptToken) : Prop :=
  (∀ before tok after, body = before ++ tok :: after → openBlocks opening ending before = 0 → ¬ stops tok) ∧
    (rest = [] ∨ openBlocks opening ending body = 0 ∧ stops last)

/-- A loop ends at an `ENDWHILE`. -/
def EndsLoop : List ScriptToken → ScriptToken → List ScriptToken → Prop :=
  EndsBlock "WHILE" "ENDWHILE" fun tok => isCommand tok "ENDWHILE"

/-- The token ends a branch of an `IF`. -/
def endsBranch (tok : ScriptToken) : Bool :=
  isCommand tok "ENDIF" || isCommand tok "ELSEIF" || isCommand tok "ELSE"

/-- A branch of an `IF` ends at an `ENDIF`, `ELSEIF` or `ELSE`. -/
def EndsBranch : List ScriptToken → ScriptToken → List ScriptToken → Prop :=
  EndsBlock "IF" "ENDIF" fun tok => endsBranch tok

section Scan

variable {opening ending : String} {stops : ScriptToken → Bool}

theorem openBlocks_cons (tok : ScriptToken) (tokens : List ScriptToken) :
    openBlocks opening ending (tok :: tokens) =
      openBlocks opening ending [tok] + openBlocks opening ending tokens := by
  simp only [openBlocks, List.countP_cons, List.countP_nil]
  omega

/-- The scan for the end of a block. `nested` counts the blocks that are open. -/
def scan (opening ending : String) (stops : ScriptToken → Bool) : ℕ → List ScriptToken → List ScriptToken
  | _, [] => []
  | nested, tok :: rest =>
    -- outside the blocks in it the block ends, and the token is returned with it
    if nested = 0 ∧ stops tok then [tok]
    else if isCommand tok ending then tok :: scan opening ending stops (nested - 1) rest
    else if isCommand tok opening then tok :: scan opening ending stops (nested + 1) rest
    else tok :: scan opening ending stops nested rest

theorem getEndWHILE_eq_scan (nested : ℕ) (tokens : List ScriptToken) :
    getEndWHILE nested tokens = scan "WHILE" "ENDWHILE" (fun tok => isCommand tok "ENDWHILE") nested tokens := by
  fun_induction getEndWHILE nested tokens <;> simp_all [scan]

theorem getElseOrElseIfOrEndIF_eq_scan (nested : ℕ) (tokens : List ScriptToken) :
    getElseOrElseIfOrEndIF nested tokens = scan "IF" "ENDIF" endsBranch nested tokens := by
  fun_induction getElseOrElseIfOrEndIF nested tokens <;> simp_all [scan, endsBranch]

theorem scan_eq_nil {nested : ℕ} {tokens : List ScriptToken} :
    scan opening ending stops nested tokens = [] ↔ tokens = [] := by
  cases tokens with
  | nil => simp [scan]
  | cons tok tokens =>
    rw [scan]
    split_ifs <;> simp

/-- One step of the scan, where the block does not end: the count follows the open blocks. -/
theorem exists_scan_cons (hends : ∀ tok, isCommand tok ending = true → stops tok = true)
    (hopens : ∀ tok, isCommand tok ending = true → isCommand tok opening = false) {nested : ℕ}
    {tok : ScriptToken} (h : ¬ (nested = 0 ∧ stops tok = true)) (tokens : List ScriptToken) :
    ∃ nested' : ℕ, scan opening ending stops nested (tok :: tokens) =
        tok :: scan opening ending stops nested' tokens ∧
      (nested' : ℤ) = nested + openBlocks opening ending [tok] := by
  rw [scan, if_neg h]
  simp only [openBlocks, List.countP_cons, List.countP_nil]
  -- an end closes the innermost open block; there is one, or the block itself would end here
  by_cases hending : isCommand tok ending = true
  · have hpos : nested ≠ 0 := fun hzero => h ⟨hzero, hends tok hending⟩
    refine ⟨nested - 1, by rw [if_pos hending], ?_⟩
    simp only [hopens tok hending, hending, if_true, Bool.false_eq_true, if_false]
    omega
  · by_cases hopening : isCommand tok opening = true
    · exact ⟨nested + 1, by rw [if_neg hending, if_pos hopening], by simp [hending, hopening]⟩
    · exact ⟨nested, by rw [if_neg hending, if_neg hopening], by simp [hending, hopening]⟩

/-- **The scan cuts where the block ends.** -/
theorem scan_eq_concat_iff (hends : ∀ tok, isCommand tok ending = true → stops tok = true)
    (hopens : ∀ tok, isCommand tok ending = true → isCommand tok opening = false) {nested : ℕ}
    {tokens body : List ScriptToken} {last : ScriptToken} :
    scan opening ending stops nested tokens = body ++ [last] ↔
      ∃ rest, tokens = body ++ last :: rest ∧
        (∀ before tok after, body = before ++ tok :: after →
          nested + openBlocks opening ending before = 0 → ¬ stops tok = true) ∧
        (rest = [] ∨ nested + openBlocks opening ending body = 0 ∧ stops last = true) := by
  -- the count of the blocks that are open in front is carried along
  induction tokens generalizing nested body with
  | nil => simp [scan]
  | cons tok tokens ih =>
    have hzero : openBlocks opening ending [] = 0 := rfl
    by_cases hstop : nested = 0 ∧ stops tok = true
    · rw [scan, if_pos hstop]
      cases body with
      | nil =>
        rw [List.nil_append, List.cons.injEq, and_iff_left rfl]
        constructor
        · rintro rfl
          refine ⟨tokens, rfl, fun before tok' after h => ?_, .inr ⟨by simp [hstop.1, hzero], hstop.2⟩⟩
          cases before <;> cases h
        · rintro ⟨rest, htokens, -⟩
          exact (List.cons.inj htokens).1
      | cons first body =>
        constructor
        · intro h
          simp at h
        · rintro ⟨rest, htokens, hinside, -⟩
          obtain ⟨rfl, -⟩ := List.cons.inj htokens
          exact absurd hstop.2 (hinside [] tok body rfl (by simp [hstop.1, hzero]))
    · obtain ⟨nested', hscan, hnested'⟩ := exists_scan_cons hends hopens hstop tokens
      rw [hscan]
      cases body with
      | nil =>
        rw [List.nil_append, List.cons.injEq, scan_eq_nil]
        constructor
        · rintro ⟨rfl, rfl⟩
          refine ⟨[], rfl, fun before tok' after h => ?_, .inl rfl⟩
          cases before <;> cases h
        · rintro ⟨rest, htokens, -, hend⟩
          obtain ⟨rfl, rfl⟩ := List.cons.inj htokens
          refine ⟨rfl, hend.resolve_right fun hlast => hstop ⟨?_, hlast.2⟩⟩
          have hnested := hlast.1
          rw [hzero] at hnested
          omega
      | cons first body =>
        rw [List.cons_append, List.cons.injEq, ih]
        simp only [hnested', add_assoc, ← openBlocks_cons]
        constructor
        · rintro ⟨rfl, rest, rfl, hinside, hend⟩
          refine ⟨rest, rfl, fun before tok' after h hlevel => ?_, hend⟩
          cases before with
          | nil =>
            obtain ⟨rfl, rfl⟩ := List.cons.inj h
            intro hstops
            refine hstop ⟨?_, hstops⟩
            rw [hzero] at hlevel
            omega
          | cons first' before =>
            obtain ⟨rfl, rfl⟩ := List.cons.inj h
            exact hinside before tok' after rfl hlevel
        · rintro ⟨rest, htokens, hinside, hend⟩
          obtain ⟨rfl, rfl⟩ := List.cons.inj htokens
          exact ⟨rfl, rest, rfl, fun before tok' after h => hinside (tok :: before) tok' after (h ▸ rfl), hend⟩

end Scan

theorem getEndWHILE_eq_concat_iff {tokens body : List ScriptToken} {last : ScriptToken} :
    getEndWHILE 0 tokens = body ++ [last] ↔ ∃ rest, tokens = body ++ last :: rest ∧ EndsLoop body last rest := by
  have hopens : ∀ tok, isCommand tok "ENDWHILE" = true → isCommand tok "WHILE" = false := by
    intro tok h
    simp only [isCommand, Bool.and_eq_true, beq_iff_eq] at h ⊢
    rw [h.2]
    simp only [Bool.and_eq_false_imp]
    exact fun _ => by decide
  rw [getEndWHILE_eq_scan, scan_eq_concat_iff (fun _ => id) hopens]
  simp only [Nat.cast_zero, zero_add]
  rfl

theorem getElseOrElseIfOrEndIF_eq_concat_iff {tokens body : List ScriptToken} {last : ScriptToken} :
    getElseOrElseIfOrEndIF 0 tokens = body ++ [last] ↔
      ∃ rest, tokens = body ++ last :: rest ∧ EndsBranch body last rest := by
  have hends : ∀ tok, isCommand tok "ENDIF" = true → endsBranch tok = true := by
    intro tok h
    simp [endsBranch, h]
  have hopens : ∀ tok, isCommand tok "ENDIF" = true → isCommand tok "IF" = false := by
    intro tok h
    simp only [isCommand, Bool.and_eq_true, beq_iff_eq] at h ⊢
    rw [h.2]
    simp only [Bool.and_eq_false_imp]
    exact fun _ => by decide
  rw [getElseOrElseIfOrEndIF_eq_scan, scan_eq_concat_iff hends hopens]
  simp only [Nat.cast_zero, zero_add]
  rfl

/-- The scan for the end of a branch finds a token where there is one. -/
theorem exists_branch {tokens : List ScriptToken} (h : tokens ≠ []) :
    ∃ body last, getElseOrElseIfOrEndIF 0 tokens = body ++ [last] := by
  have hne : getElseOrElseIfOrEndIF 0 tokens ≠ [] := by
    rwa [getElseOrElseIfOrEndIF_eq_scan, Ne, scan_eq_nil]
  exact ⟨_, _, (List.dropLast_append_getLast hne).symm⟩

theorem exists_loop {tokens : List ScriptToken} (h : tokens ≠ []) :
    ∃ body last, getEndWHILE 0 tokens = body ++ [last] := by
  have hne : getEndWHILE 0 tokens ≠ [] := by
    rwa [getEndWHILE_eq_scan, Ne, scan_eq_nil]
  exact ⟨_, _, (List.dropLast_append_getLast hne).symm⟩

end Minima.Kissvm.StatementParser
