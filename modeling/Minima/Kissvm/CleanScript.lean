import Mathlib.Data.List.DropRight
import Minima.Kissvm.ExpressionParser

/-! # `Contract::cleanScript`

A script is cleaned by cutting it into tokens and writing these out again, with single spaces between them
and none inside of round brackets. The address of a script is computed from the cleaned text.

* **`Contract.cleanScript`** — the cleaned text.
* **`Contract.scan_render`** — what the tokenizer makes of a text that was written out.
* **`Contract.cleanScript_meaning_iff`** — cleaning keeps the tokens of a script unless a command stands
  right behind an opening bracket, or the script ends with white space in square brackets that nothing
  closes. -/

namespace Minima.Kissvm

open ScriptTokenizer

namespace Contract

/-- `needs_space_between`. -/
def needsSpaceBetween (prev curr : Text) : Bool :=
  match prev.getLast? with
  | none => false
  | some pc =>
    let fc := curr.head?.getD 32
    if fc = 41 ∨ fc = 93 ∨ fc = 44 then false else if pc = 40 ∨ pc = 91 then false else true

/-- The text of a token, with the hex digits in upper case. -/
def upperHex : Text → Text
  | c :: x :: body =>
    if c = 48 ∧ (x = 120 ∨ x = 88) then 48 :: 120 :: body.map BaseConverter.toUpper else c :: x :: body
  | t => t

/-- A space is written behind the token at once. -/
def spaced (tok : ScriptToken) : Bool :=
  tok.tokenType = .command ∨ tok.tokenType = .true ∨ tok.tokenType = .false

/-- One token: what is written so far, and `prevtok`. -/
def cleanToken (s : Text × Text) (tok : ScriptToken) : Text × Text :=
  let t := upperHex tok.token
  let ret := if !s.1.isEmpty && needsSpaceBetween s.2 t then s.1 ++ [32] else s.1
  let ret := ret ++ t
  if spaced tok then (ret ++ [32], []) else (ret, t)

/-- `ltrim` and `rtrim`. -/
def trim (s : Text) : Text := (s.dropWhile MiniNumber.isSpace).rdropWhile MiniNumber.isSpace

/-- **`cleanScript`**: a text that the tokenizer does not accept stays as it is. -/
def cleanScript (zScript : Text) : Text :=
  match tokenize zScript with
  | .error _ => zScript
  | .ok tokens => trim (tokens.foldl cleanToken ([], [])).1

/-! ## Characters and words -/

theorem forall_byte {p : Byte → Prop} (h : ∀ n : Fin 256, p (UInt8.ofNat n)) (c : Byte) : p c := by
  have hc := h ⟨c.toNat, c.toNat_lt⟩
  rwa [UInt8.ofNat_toNat] at hc

/-- A character that a word can start with. -/
def startsWord (c : Byte) : Bool := MiniNumber.isDigit c || isUpper c || isLower c || c = 64

/-- What the classes of characters have to do with each other, checked on every character. -/
theorem character_spec : ∀ c : Byte,
    (startsWord c = true → MiniNumber.isSpace c = false ∧ inWord c = true ∧ c ≠ 36 ∧ c ≠ 44 ∧ c ≠ 41 ∧ c ≠ 93) ∧
    (inWord c = true → MiniNumber.isSpace c = false ∧ tokensNumberOperator.contains c = false ∧
      c ≠ 60 ∧ c ≠ 62 ∧ c ≠ 40 ∧ c ≠ 41 ∧ c ≠ 91 ∧ c ≠ 93) ∧
    (tokensNumberOperator.contains c = true →
      MiniNumber.isSpace c = false ∧ inWord c = false ∧ c ≠ 40 ∧ c ≠ 44 ∧ c ≠ 91 ∧ c ≠ 93) ∧
    (isHexDigit c = true →
      isHexDigit (BaseConverter.toUpper c) = true ∧ inWord (BaseConverter.toUpper c) = true) ∧
    (isUpper (BaseConverter.toUpper c) = true → startsWord c = true) ∧
    BaseConverter.toUpper (BaseConverter.toUpper c) = BaseConverter.toUpper c :=
  forall_byte (by decide +kernel)

theorem startsWord_spec (c : Byte) : startsWord c = true →
    MiniNumber.isSpace c = false ∧ inWord c = true ∧ c ≠ 36 ∧ c ≠ 44 ∧ c ≠ 41 ∧ c ≠ 93 :=
  (character_spec c).1

/-- A character that goes on with a word is none that a token of its own starts with. -/
theorem inWord_spec (c : Byte) : inWord c = true →
    MiniNumber.isSpace c = false ∧ tokensNumberOperator.contains c = false ∧ c ≠ 60 ∧ c ≠ 62 ∧ c ≠ 40 ∧
      c ≠ 41 ∧ c ≠ 91 ∧ c ≠ 93 :=
  (character_spec c).2.1

theorem operator_spec (c : Byte) : tokensNumberOperator.contains c = true →
    MiniNumber.isSpace c = false ∧ inWord c = false ∧ c ≠ 40 ∧ c ≠ 44 ∧ c ≠ 91 ∧ c ≠ 93 :=
  (character_spec c).2.2.1

theorem isHexDigit_toUpper (c : Byte) : isHexDigit c = true →
    isHexDigit (BaseConverter.toUpper c) = true ∧ inWord (BaseConverter.toUpper c) = true :=
  (character_spec c).2.2.2.1

theorem startsWord_of_toUpper (c : Byte) : isUpper (BaseConverter.toUpper c) = true → startsWord c = true :=
  (character_spec c).2.2.2.2.1

theorem toUpper_toUpper (c : Byte) : BaseConverter.toUpper (BaseConverter.toUpper c) = BaseConverter.toUpper c :=
  (character_spec c).2.2.2.2.2

theorem upperHex_of_ne {c : Byte} (h : c ≠ 48) (cs : Text) : upperHex (c :: cs) = c :: cs := by
  cases cs with
  | nil => rfl
  | cons x body => rw [upperHex, if_neg fun hc => h hc.1]

@[simp] theorem upperHex_upperHex (t : Text) : upperHex (upperHex t) = upperHex t := by
  cases t with
  | nil => rfl
  | cons c t =>
    cases t with
    | nil => rfl
    | cons x body =>
      by_cases h : c = 48 ∧ (x = 120 ∨ x = 88)
      · have hupper : (body.map BaseConverter.toUpper).map BaseConverter.toUpper =
            body.map BaseConverter.toUpper := by
          rw [List.map_map]
          exact List.map_congr_left fun c _ => toUpper_toUpper c
        simp [upperHex, h, hupper]
      · simp only [upperHex, if_neg h]

@[simp] theorem upperHex_length (t : Text) : (upperHex t).length = t.length := by
  cases t with
  | nil => rfl
  | cons c t =>
    cases t with
    | nil => rfl
    | cons x body =>
      rw [upperHex]
      split_ifs <;> simp

/-- The word starts as a word can, and upper case does not change it. -/
def plainWord (word : Text) : Bool :=
  match word with
  | [] => false
  | c :: _ => startsWord c && upperHex word == word

theorem plainWord_of_ne {c : Byte} (hstart : startsWord c = true) (h : c ≠ 48) (cs : Text) :
    plainWord (c :: cs) = true := by
  rw [plainWord, hstart, upperHex_of_ne h, beq_self_eq_true, Bool.and_self]

theorem plainWord_of_isNumeric {word : Text} (h : Value.isNumeric word = true) : plainWord word = true := by
  cases word with
  | nil => cases h
  | cons c cs =>
    have hdigit : MiniNumber.isDigit c = true := by
      by_contra hno
      simp [Value.isNumeric, hno] at h
    have hstart : startsWord c = true := by simp [startsWord, hdigit]
    by_cases hc : c = 48
    · subst hc
      cases cs with
      | nil => decide
      | cons x body =>
        have hx : ¬ (x = 120 ∨ x = 88) := by
          rintro (rfl | rfl)
          all_goals
            simp [Value.isNumeric, MiniNumber.isDigit] at h
        simp [plainWord, hstart, upperHex, hx]
    · exact plainWord_of_ne hstart hc cs

theorem plainWord_of_getFunction {word : Text} (h : (MinimaFunction.getFunction word).isSome = true) :
    plainWord word = true := by
  have hnames : ∀ f ∈ MinimaFunction.prototypeList,
      ((MiniNumber.ascii f.2).head?.map isUpper) = some true := by decide +kernel
  rw [MinimaFunction.getFunction, Option.isSome_map, List.find?_isSome] at h
  obtain ⟨f, hf, hname⟩ := h
  have hhead := hnames f hf
  rw [beq_iff_eq.mp hname] at hhead
  cases word with
  | nil => cases hhead
  | cons c cs =>
    have hupper : isUpper (BaseConverter.toUpper c) = true := by simpa using hhead
    refine plainWord_of_ne (startsWord_of_toUpper c hupper) ?_ cs
    rintro rfl
    exact absurd hupper (by decide)

/-- A hex word in upper case is a hex word. -/
theorem isHex_upperHex {word : Text} (h : isHex word = true) :
    isHex (upperHex word) = true ∧ (∀ c ∈ upperHex word, inWord c = true) ∧
      ∃ body, upperHex word = 48 :: 120 :: body := by
  match word, h with
  | [], h => cases h
  | [c], h => simp [isHex, show MiniNumber.ascii "0x" = [48, 120] from rfl, List.isPrefixOf] at h
  | c :: x :: body, h =>
    have hstart : MiniNumber.ascii "0x" = [48, 120] := rfl
    simp only [isHex, hstart, List.isPrefixOf, Bool.and_eq_true, beq_iff_eq, List.drop_succ_cons,
      List.drop_zero, List.all_eq_true] at h
    obtain ⟨⟨⟨rfl, rfl, -⟩, hbody⟩, hdigits⟩ := h
    have hupper : upperHex (48 :: 120 :: body) = 48 :: 120 :: body.map BaseConverter.toUpper := by
      rw [upperHex, if_pos ⟨rfl, .inl rfl⟩]
    rw [hupper]
    refine ⟨?_, ?_, _, rfl⟩
    · simp only [isHex, hstart, List.isPrefixOf, Bool.and_eq_true, beq_self_eq_true, List.drop_succ_cons,
        List.drop_zero, List.all_map, List.all_eq_true, true_and]
      exact ⟨by simpa using hbody, fun c hc => (isHexDigit_toUpper c (hdigits c hc)).1⟩
    · intro c hc
      rcases List.mem_cons.mp hc with rfl | hc
      · decide
      rcases List.mem_cons.mp hc with rfl | hc
      · decide
      obtain ⟨d, hd, rfl⟩ := List.mem_map.mp hc
      exact (isHexDigit_toUpper d (hdigits d hd)).2

/-- The words of the language are plain and do not begin with a zero. -/
theorem plainWord_of_mem :
    (∀ word ∈ tokensCommand, plainWord word = true ∧ word.head? ≠ some 48) ∧
      (∀ word ∈ tokensBooleanOperator, plainWord word = true) ∧
      plainWord (MiniNumber.ascii "TRUE") = true ∧ plainWord (MiniNumber.ascii "FALSE") = true := by
  decide +kernel

theorem upperHex_of_plainWord {word : Text} (h : plainWord word = true) : upperHex word = word := by
  cases word with
  | nil => rfl
  | cons c cs => exact beq_iff_eq.mp (Bool.and_eq_true_iff.mp h).2

/-- **The words that the tokenizer accepts.** -/
theorem wordToken_eq_ok {w : Bool} {word : Text} {tok : ScriptToken} (h : wordToken w word = .ok tok) :
    tok.token = word ∧ (plainWord word = true ∨ isHex word = true) := by
  unfold wordToken at h
  split_ifs at h with hcommand hw hvalue hfunction hboolean htrue hfalse hglobal hvariable hlong
  all_goals cases h
  all_goals refine ⟨rfl, ?_⟩
  · exact .inl (plainWord_of_mem.1 word hcommand).1
  · rcases Bool.or_eq_true_iff.mp hvalue with hnumeric | hhex
    · exact .inl (plainWord_of_isNumeric hnumeric)
    · exact .inr hhex
  · exact .inl (plainWord_of_getFunction hfunction)
  · exact .inl (plainWord_of_mem.2.1 word hboolean)
  · exact .inl (htrue ▸ plainWord_of_mem.2.2.1)
  · exact .inl (hfalse ▸ plainWord_of_mem.2.2.2)
  · cases word with
    | nil => cases hglobal
    | cons c cs =>
      simp only [isGlobal, Bool.and_eq_true, beq_iff_eq] at hglobal
      exact .inl (plainWord_of_ne (by rw [hglobal.1.1]; decide) (by rw [hglobal.1.1]; decide) cs)
  · cases word with
    | nil => cases hvariable
    | cons c cs =>
      have hlower : isLower c = true := by
        simp only [isVariable, List.all_cons, Bool.and_eq_true] at hvariable
        exact hvariable.2.1
      refine .inl (plainWord_of_ne (by simp [startsWord, hlower]) ?_ cs)
      rintro rfl
      exact absurd hlower (by decide)

/-- White space in front matters for commands only. -/
theorem wordToken_of_notMem {word : Text} (h : word ∉ tokensCommand) (w : Bool) {w' : Bool} :
    wordToken w' word = wordToken w word := by
  rw [wordToken, wordToken, if_neg h, if_neg h]

/-- A word in upper case is the same token; a command needs the space in front again. -/
theorem wordToken_upperHex {w w' : Bool} {word : Text} {tok : ScriptToken} (h : wordToken w word = .ok tok)
    (hw : tok.tokenType = .command → w' = true) :
    wordToken w' (upperHex word) = .ok { tok with token := upperHex word } := by
  rcases (wordToken_eq_ok h).2 with hplain | hhex
  · rw [upperHex_of_plainWord hplain]
    by_cases hcommand : word ∈ tokensCommand
    · rw [wordToken, if_pos hcommand] at h
      split_ifs at h
      cases h
      rw [wordToken, if_pos hcommand, if_pos (hw rfl)]
    · rw [wordToken_of_notMem hcommand w, h, ← (wordToken_eq_ok h).1]
  · obtain ⟨hupper, -, body, hbody⟩ := isHex_upperHex hhex
    have hword : word ∉ tokensCommand := by
      intro hmem
      have hhead : word.head? = some 48 := by
        cases word with
        | nil => cases hhex
        | cons c cs =>
          simp only [isHex, Bool.and_eq_true] at hhex
          have hstart : MiniNumber.ascii "0x" = [48, 120] := rfl
          rw [hstart, List.isPrefixOf, Bool.and_eq_true, beq_iff_eq] at hhex
          rw [List.head?_cons, hhex.1.1.1]
      exact (plainWord_of_mem.1 word hmem).2 hhead
    have hword' : upperHex word ∉ tokensCommand := fun hmem =>
      (plainWord_of_mem.1 _ hmem).2 (by rw [hbody]; rfl)
    rw [wordToken, if_neg hword, if_pos (by simp [hhex])] at h
    cases h
    rw [wordToken, if_neg hword', if_pos (by simp [hupper])]

/-- A command without white space in front is refused. -/
theorem wordToken_command {w : Bool} {word : Text} {tok : ScriptToken} (h : wordToken w word = .ok tok)
    (htype : tok.tokenType = .command) :
    wordToken false (upperHex word) = .error (.parse "Missing space before Command @ ") := by
  by_cases hcommand : word ∈ tokensCommand
  · rw [upperHex_of_plainWord (plainWord_of_mem.1 word hcommand).1, wordToken, if_pos hcommand, if_neg Bool.false_ne_true]
  · rw [wordToken, if_neg hcommand] at h
    split_ifs at h
    all_goals
      cases h
      cases htype

/-! ## Tokens in a text -/

/-- The tokens that the tokenizer makes. -/
inductive Shape : ScriptToken → Prop
  | operator {c : Byte} (hc : tokensNumberOperator.contains c = true) : Shape ⟨.operator, [c]⟩
  | shift {c : Byte} (hc : c = 60 ∨ c = 62) : Shape ⟨.operator, [c, c]⟩
  | openBracket : Shape ⟨.openBracket, [40]⟩
  | closeBracket : Shape ⟨.closeBracket, [41]⟩
  | square {cs : Text} (h : squareBrackets 0 (91 :: cs) = (91 :: cs, [])) : Shape ⟨.value, 91 :: cs⟩
  | param {cs : Text} (h : ∀ c ∈ cs, inWord c = true) : Shape ⟨.functionParam, 36 :: cs⟩
  | word {w : Bool} {word : Text} {tok : ScriptToken} (hword : ∀ c ∈ word, inWord c = true)
      (h : wordToken w word = .ok tok) : Shape tok

/-- The text may stand behind the token: it does not go on with its word, and it is not in its square
brackets. -/
def Fits (tok : ScriptToken) (rest : Text) : Prop :=
  ∀ c cs, tok.token = c :: cs →
    (inWord c = true → ∀ d ds, rest = d :: ds → inWord d = false) ∧
    (c = 91 → squareBrackets 0 (tok.token ++ rest) = (tok.token, rest))

/-- The token, with hex digits in upper case. -/
def upper (tok : ScriptToken) : ScriptToken := { tok with token := upperHex tok.token }

theorem squareBrackets_append (sq : ℕ) (cs : Text) :
    (squareBrackets sq cs).1 ++ (squareBrackets sq cs).2 = cs := by
  fun_induction squareBrackets sq cs with
  | case1 => rfl
  | case2 => rfl
  | case3 sq c cs h sq' ih => rw [List.cons_append, ih]

/-- What is taken is taken again. -/
theorem squareBrackets_self (sq : ℕ) (cs : Text) :
    squareBrackets sq (squareBrackets sq cs).1 = ((squareBrackets sq cs).1, []) := by
  fun_induction squareBrackets sq cs with
  | case1 => rfl
  | case2 sq c cs h => rw [squareBrackets, if_pos h]
  | case3 sq c cs h sq' ih =>
    rw [squareBrackets, if_neg h]
    change (c :: (squareBrackets sq' _).1, (squareBrackets sq' _).2) = _
    rw [ih]

/-- A text in square brackets that something follows is closed: it ends with its bracket, whatever
follows. -/
theorem squareBrackets_closed {sq : ℕ} {cs : Text} (h : (squareBrackets sq cs).2 ≠ []) :
    (squareBrackets sq cs).1.getLast? = some 93 ∧
      ∀ rest, squareBrackets sq ((squareBrackets sq cs).1 ++ rest) = ((squareBrackets sq cs).1, rest) := by
  fun_induction squareBrackets sq cs with
  | case1 => exact absurd rfl h
  | case2 sq c cs hclose =>
    refine ⟨by simp [hclose.1], fun rest => ?_⟩
    rw [List.singleton_append, squareBrackets, if_pos hclose]
  | case3 sq c cs hopen sq' ih =>
    obtain ⟨hlast, hrest⟩ := ih h
    refine ⟨?_, fun rest => ?_⟩
    · rw [List.getLast?_cons, hlast]
      rfl
    · rw [List.cons_append, squareBrackets, if_neg hopen]
      change (c :: (squareBrackets sq' _).1, (squareBrackets sq' _).2) = _
      rw [hrest]

/-- A word is cut off where it ends. -/
theorem span_word {word rest : Text} (hword : ∀ c ∈ word, inWord c = true)
    (hrest : ∀ d ds, rest = d :: ds → inWord d = false) :
    (word ++ rest).takeWhile inWord = word ∧ (word ++ rest).dropWhile inWord = rest := by
  have htake : rest.takeWhile inWord = [] ∧ rest.dropWhile inWord = rest := by
    cases rest with
    | nil => exact ⟨rfl, rfl⟩
    | cons d ds => simp [hrest d ds rfl]
  rw [List.takeWhile_append_of_pos hword, List.dropWhile_append_of_pos hword, htake.1, htake.2,
    List.append_nil]
  exact ⟨rfl, rfl⟩

theorem not_inWord_of_dropWhile {cs ds : Text} {d : Byte} (h : cs.dropWhile inWord = d :: ds) :
    inWord d = false := by
  have hhead := List.head?_dropWhile_not inWord cs
  rw [h] at hhead
  simpa using hhead

/-- **A token of the tokenizer** has one of the shapes, and what is behind it fits. -/
theorem nextToken_shape {w : Bool} {c : Byte} {cs rest : Text} {tok : ScriptToken}
    (h : nextToken w c cs = .ok (tok, rest)) :
    Shape tok ∧ c :: cs = tok.token ++ rest ∧ Fits tok rest := by
  unfold nextToken at h
  split_ifs at h with hop hshift hopen hclose hsquare hparam
  · cases h
    refine ⟨.operator hop, rfl, ?_⟩
    rintro c' cs' ⟨rfl, rfl⟩
    refine ⟨fun hin => ?_, ?_⟩
    · rw [(inWord_spec c hin).2.1] at hop
      cases hop
    · rintro rfl
      exact absurd hop (by decide)
  · cases cs with
    | nil => cases h
    | cons testchar cs =>
      simp only at h
      split_ifs at h with htest
      cases h
      subst htest
      refine ⟨.shift hshift, rfl, ?_⟩
      rintro c' cs' ⟨rfl, rfl⟩
      refine ⟨fun hin => ?_, ?_⟩
      · have hspec := inWord_spec testchar hin
        exact absurd hshift (by simp [hspec])
      · rintro rfl
        exact absurd hshift (by decide)
  · cases h
    subst hopen
    refine ⟨.openBracket, rfl, ?_⟩
    rintro c' cs' ⟨rfl, rfl⟩
    exact ⟨fun hin => absurd hin (by decide), fun hc => absurd hc (by decide)⟩
  · cases h
    subst hclose
    refine ⟨.closeBracket, rfl, ?_⟩
    rintro c' cs' ⟨rfl, rfl⟩
    exact ⟨fun hin => absurd hin (by decide), fun hc => absurd hc (by decide)⟩
  · cases h
    subst hsquare
    have happend := squareBrackets_append 0 (91 :: cs)
    have hself := squareBrackets_self 0 (91 :: cs)
    have hhead : ∃ cs', (squareBrackets 0 (91 :: cs)).1 = 91 :: cs' := by
      rw [squareBrackets, if_neg (by decide)]
      exact ⟨_, rfl⟩
    obtain ⟨cs', hcs'⟩ := hhead
    refine ⟨?_, happend.symm, ?_⟩
    · rw [hcs'] at hself ⊢
      exact .square hself
    · rintro c' cs'' htoken
      dsimp only at htoken
      rw [hcs'] at htoken
      cases htoken
      refine ⟨fun hin => absurd hin (by decide), fun _ => ?_⟩
      dsimp only
      rw [happend]
  · cases h
    subst hparam
    rw [List.takeWhile_cons_of_pos inWord_dollar, List.dropWhile_cons_of_pos inWord_dollar]
    refine ⟨.param fun c hc => List.mem_takeWhile_imp hc, by simp, ?_⟩
    rintro c' cs' ⟨rfl, rfl⟩
    exact ⟨fun _ d ds hd => not_inWord_of_dropWhile hd, fun hc => absurd hc (by decide)⟩
  · obtain ⟨t, ht, hret⟩ := ExpressionParser.bind_eq_ok.mp h
    cases hret
    have htoken := (wordToken_eq_ok ht).1
    refine ⟨.word (fun c hc => List.mem_takeWhile_imp hc) ht, ?_, ?_⟩
    · rw [htoken, List.takeWhile_append_dropWhile]
    · intro c' cs' hcs'
      rw [htoken] at hcs'
      have hin : inWord c' = true := List.mem_takeWhile_imp (hcs' ▸ List.mem_cons_self)
      refine ⟨fun _ d ds hd => not_inWord_of_dropWhile hd, ?_⟩
      rintro rfl
      exact absurd hin (by decide)

/-- The word of a token, in upper case. -/
theorem word_upperHex {w : Bool} {word : Text} {tok : ScriptToken} (hword : ∀ c ∈ word, inWord c = true)
    (h : wordToken w word = .ok tok) :
    (∀ c ∈ upperHex word, inWord c = true) ∧ ∃ c cs, upperHex word = c :: cs ∧ startsWord c = true := by
  rcases (wordToken_eq_ok h).2 with hplain | hhex
  · cases word with
    | nil => cases hplain
    | cons c cs =>
      obtain ⟨hstart, hsame⟩ := Bool.and_eq_true_iff.mp hplain
      rw [beq_iff_eq.mp hsame]
      exact ⟨hword, c, cs, rfl, hstart⟩
  · obtain ⟨-, hin, body, hbody⟩ := isHex_upperHex hhex
    exact ⟨hin, 48, 120 :: body, hbody, by decide⟩

/-- The token behind a word. -/
theorem nextToken_word {w : Bool} {c : Byte} {cs : Text} (hin : inWord c = true) (hc : c ≠ 36) :
    nextToken w c cs = (do
      let tok ← wordToken w ((c :: cs).takeWhile inWord)
      return (tok, (c :: cs).dropWhile inWord)) := by
  obtain ⟨-, hop, hlt, hgt, hopen, hclose, hsquare, -⟩ := inWord_spec c hin
  unfold nextToken
  rw [if_neg (hop ▸ Bool.false_ne_true), if_neg (by simp [hlt, hgt]), if_neg hopen, if_neg hclose, if_neg hsquare]
  simp only [if_neg hc]

/-- **A token that was written out is read again,** in upper case, when what is behind it fits; a command
needs white space in front. -/
theorem nextToken_of_shape {w : Bool} {tok : ScriptToken} {rest : Text} (h : Shape tok)
    (hfits : Fits tok rest) :
    ∃ c cs, upperHex tok.token ++ rest = c :: cs ∧ MiniNumber.isSpace c = false ∧
      (nextToken w c cs).toOption =
        if tok.tokenType = .command ∧ w = false then none else some (upper tok, rest) := by
  cases h with
  | @operator c hc =>
    refine ⟨c, rest, rfl, ?_, ?_⟩
    · exact (operator_spec c hc).1
    · unfold nextToken
      rw [if_pos hc]
      rfl
  | @shift c hc =>
    refine ⟨c, c :: rest, ?_, ?_, ?_⟩
    · rcases hc with rfl | rfl <;> rfl
    · rcases hc with rfl | rfl <;> rfl
    · rcases hc with rfl | rfl <;> rfl
  | openBracket => exact ⟨40, rest, rfl, rfl, rfl⟩
  | closeBracket => exact ⟨41, rest, rfl, rfl, rfl⟩
  | @square cs h =>
    have hsquare := (hfits 91 cs rfl).2 rfl
    dsimp only [List.cons_append] at hsquare
    refine ⟨91, cs ++ rest, by rw [upperHex_of_ne (by decide)]; rfl, rfl, ?_⟩
    unfold nextToken
    rw [if_neg (by decide), if_neg (by decide), if_neg (by decide), if_neg (by decide),
      if_pos rfl, hsquare]
    simp [Except.toOption, upper, upperHex_of_ne]
  | @param cs hcs =>
    have hrest := (hfits 36 cs rfl).1 (by decide)
    have hspan := span_word (List.forall_mem_cons.mpr ⟨inWord_dollar, hcs⟩) hrest
    refine ⟨36, cs ++ rest, by rw [upperHex_of_ne (by decide)]; rfl, rfl, ?_⟩
    unfold nextToken
    rw [if_neg (by decide), if_neg (by decide), if_neg (by decide), if_neg (by decide),
      if_neg (by decide)]
    rw [List.cons_append] at hspan
    simp [Except.toOption, upper, upperHex_of_ne, hspan.1, hspan.2]
  | @word w' word tok hword h =>
    obtain ⟨hall, c, cs, hupper, hstart⟩ := word_upperHex hword h
    obtain ⟨hspace, hin, hdollar, -⟩ := startsWord_spec c hstart
    have htoken := (wordToken_eq_ok h).1
    have hrest : ∀ d ds, rest = d :: ds → inWord d = false := by
      cases hw : word with
      | nil => rw [hw] at hupper; cases hupper
      | cons c' cs' =>
        rw [hw] at htoken hword
        exact (hfits c' cs' htoken).1 (hword c' List.mem_cons_self)
    have hspan := span_word hall hrest
    rw [hupper, List.cons_append] at hspan
    refine ⟨c, cs ++ rest, by rw [htoken, hupper]; rfl, hspace, ?_⟩
    rw [nextToken_word hin hdollar, hspan.1, hspan.2, ← hupper]
    by_cases hcommand : tok.tokenType = .command ∧ w = false
    · rw [if_pos hcommand, hcommand.2, wordToken_command h hcommand.1]
      rfl
    · rw [wordToken_upperHex h fun htype => by simpa [htype] using hcommand, if_neg hcommand]
      simp [Except.toOption, bind, Except.bind, pure, Except.pure, upper, htoken]

/-! ## The scan -/

/-- The tokenizer, behind white space or not. -/
def scan (w : Bool) (cs : Text) : Scripted (List ScriptToken) := tokenizeFrom cs.length w cs

theorem tokenize_eq_scan (zScript : Text) : tokenize zScript = scan true zScript := rfl

theorem scan_space {w : Bool} {c : Byte} (h : MiniNumber.isSpace c = true) (cs : Text) :
    scan w (c :: cs) = scan true cs := by
  rw [scan, List.length_cons, tokenizeFrom, if_pos h, scan]

theorem scan_cons {w : Bool} {c : Byte} (h : MiniNumber.isSpace c = false) (cs : Text) :
    scan w (c :: cs) = (do
      let (tok, rest) ← nextToken w c cs
      let tokens ← scan false rest
      return tok :: tokens) := by
  rw [scan, List.length_cons, tokenizeFrom, if_neg (by simp [h])]
  cases hnext : nextToken w c cs with
  | error e => rfl
  | ok p =>
    obtain ⟨tok, rest⟩ := p
    have hrest : rest.length ≤ cs.length := Nat.le_of_lt_succ (nextToken_length_lt hnext)
    simp only [bind, Except.bind, scan, tokenizeFrom_of_le hrest]

/-- Something may follow the token. -/
def Closed (tok : ScriptToken) : Prop :=
  ∀ cs, tok.token = 91 :: cs → tok.token.getLast? = some 93 ∧
    ∀ rest, squareBrackets 0 (tok.token ++ rest) = (tok.token, rest)

/-- Tokens as the tokenizer makes them: only the last one can be in open square brackets. -/
def Scanned : List ScriptToken → Prop
  | [] => True
  | tok :: tokens => Shape tok ∧ (tokens ≠ [] → Closed tok) ∧ Scanned tokens

theorem Fits.closed {tok : ScriptToken} {rest : Text} (h : Fits tok rest) (hrest : rest ≠ []) :
    Closed tok := by
  intro cs htoken
  have hsquare := (h 91 cs htoken).2 rfl
  have hclosed := @squareBrackets_closed 0 (tok.token ++ rest) (by rw [hsquare]; exact hrest)
  rwa [hsquare] at hclosed

/-- **What the tokenizer makes of a text.** -/
theorem scanned_of_scan {w : Bool} {cs : Text} {tokens : List ScriptToken} (h : scan w cs = .ok tokens) :
    Scanned tokens := by
  induction hlen : cs.length using Nat.strong_induction_on generalizing w cs tokens with
  | h len ih =>
    subst hlen
    cases cs with
    | nil => cases h; trivial
    | cons c cs =>
      cases hspace : MiniNumber.isSpace c with
      | true =>
        rw [scan_space hspace] at h
        exact ih _ (Nat.lt_succ_self _) h rfl
      | false =>
        rw [scan_cons hspace] at h
        obtain ⟨⟨tok, rest⟩, hnext, hmore⟩ := ExpressionParser.bind_eq_ok.mp h
        obtain ⟨tokens', htokens, hret⟩ := ExpressionParser.bind_eq_ok.mp hmore
        cases hret
        obtain ⟨hshape, -, hfits⟩ := nextToken_shape hnext
        refine ⟨hshape, fun hne => hfits.closed ?_, ih _ (nextToken_length_lt hnext) htokens rfl⟩
        rintro rfl
        cases htokens
        exact hne rfl

/-! ## Writing tokens out -/

/-- The tokens written out behind the text `prevtok`. -/
def render : Text → List ScriptToken → Text
  | _, [] => []
  | prevtok, tok :: tokens =>
    (if needsSpaceBetween prevtok (upperHex tok.token) then [32] else []) ++ (upperHex tok.token ++
      match tokens with
      | [] => []
      | next :: tokens =>
        if spaced tok then 32 :: render [] (next :: tokens)
        else render (upperHex tok.token) (next :: tokens))

/-- A command stands right behind an opening bracket. `opened` says that there is one in front. -/
def commandBehindBracket : Bool → List ScriptToken → Bool
  | _, [] => false
  | opened, tok :: tokens =>
    (opened && tok.tokenType = .command) || commandBehindBracket (tok.tokenType = .openBracket) tokens

/-- What is written behind a token. -/
def behind (tok : ScriptToken) : List ScriptToken → Text
  | [] => []
  | next :: tokens =>
    if spaced tok then 32 :: render [] (next :: tokens) else render (upperHex tok.token) (next :: tokens)

theorem render_cons (prevtok : Text) (tok : ScriptToken) (tokens : List ScriptToken) :
    render prevtok (tok :: tokens) = (if needsSpaceBetween prevtok (upperHex tok.token) then [32] else []) ++
      (upperHex tok.token ++ behind tok tokens) := by
  cases tokens <;> rfl

theorem wordToken_not_bracket {w : Bool} {word : Text} {tok : ScriptToken} (h : wordToken w word = .ok tok) :
    tok.tokenType ≠ .openBracket := by
  unfold wordToken at h
  split_ifs at h
  all_goals
    cases h
    simp

/-- The first character of a token that is written out. -/
theorem Shape.head {tok : ScriptToken} (h : Shape tok) :
    ∃ c cs, upperHex tok.token = c :: cs ∧ MiniNumber.isSpace c = false ∧ c ≠ 93 ∧ c ≠ 44 ∧
      (tok.tokenType = .command → c ≠ 41) := by
  cases h with
  | @operator c hc =>
    obtain ⟨hspace, -, -, hcomma, -, hsquare⟩ := operator_spec c hc
    exact ⟨c, [], rfl, hspace, hsquare, hcomma, fun h => by cases h⟩
  | @shift c hc =>
    have hc' : c ≠ 48 := by rintro rfl; exact absurd hc (by decide)
    refine ⟨c, [c], upperHex_of_ne hc' _, ?_, ?_, ?_, fun h => by cases h⟩
    all_goals rcases hc with rfl | rfl <;> decide
  | openBracket => exact ⟨40, [], rfl, rfl, by decide, by decide, fun h => by cases h⟩
  | closeBracket => exact ⟨41, [], rfl, rfl, by decide, by decide, fun h => by cases h⟩
  | @square cs _ => exact ⟨91, cs, upperHex_of_ne (by decide) _, rfl, by decide, by decide, fun h => by cases h⟩
  | @param cs _ => exact ⟨36, cs, upperHex_of_ne (by decide) _, rfl, by decide, by decide, fun h => by cases h⟩
  | word hword h =>
    obtain ⟨-, c, cs, hupper, hstart⟩ := word_upperHex hword h
    obtain ⟨hspace, -, -, hcomma, hclose, hsquare⟩ := startsWord_spec c hstart
    exact ⟨c, cs, (wordToken_eq_ok h).1 ▸ hupper, hspace, hsquare, hcomma, fun _ => hclose⟩

/-- The last character of a token that something follows. -/
theorem Shape.last {tok : ScriptToken} (h : Shape tok) (hclosed : Closed tok) :
    ∃ c, (upperHex tok.token).getLast? = some c ∧ c ≠ 91 ∧ (c = 40 ↔ tok.tokenType = .openBracket) := by
  cases h with
  | @operator c hc =>
    obtain ⟨-, -, hopen, -, hsquare, -⟩ := operator_spec c hc
    exact ⟨c, rfl, hsquare, by simp [hopen]⟩
  | @shift c hc =>
    have hc' : c ≠ 48 := by rintro rfl; exact absurd hc (by decide)
    refine ⟨c, by rw [upperHex_of_ne hc']; rfl, ?_, ?_⟩
    all_goals rcases hc with rfl | rfl <;> decide
  | openBracket => exact ⟨40, rfl, by decide, by simp⟩
  | closeBracket => exact ⟨41, rfl, by decide, by simp⟩
  | @square cs _ =>
    refine ⟨93, ?_, by decide, by simp⟩
    rw [upperHex_of_ne (by decide)]
    exact (hclosed cs rfl).1
  | @param cs hcs =>
    have hall : ∀ c ∈ 36 :: cs, inWord c = true := List.forall_mem_cons.mpr ⟨inWord_dollar, hcs⟩
    have hlast := List.getLast?_eq_some_getLast (List.cons_ne_nil (36 : Byte) cs)
    obtain ⟨-, -, -, -, hopen, -, hsquare, -⟩ :=
      inWord_spec _ (hall _ (List.getLast_mem (List.cons_ne_nil _ _)))
    refine ⟨_, by rw [upperHex_of_ne (by decide)]; exact hlast, hsquare, ?_⟩
    exact ⟨fun h => absurd h hopen, fun h => by cases h⟩
  | word hword h =>
    obtain ⟨hall, c, cs, hupper, -⟩ := word_upperHex hword h
    rw [(wordToken_eq_ok h).1, hupper]
    rw [hupper] at hall
    have hlast := List.getLast?_eq_some_getLast (List.cons_ne_nil c cs)
    obtain ⟨-, -, -, -, hopen, -, hsquare, -⟩ := inWord_spec _ (hall _ (List.getLast_mem (List.cons_ne_nil _ _)))
    exact ⟨_, hlast, hsquare, fun h => absurd h hopen, fun htype => absurd htype (wordToken_not_bracket h)⟩

/-- An opening bracket is no word. -/
theorem Shape.not_inWord {tok : ScriptToken} (h : Shape tok) (htype : tok.tokenType = .openBracket) {c : Byte}
    {cs : Text} (htoken : tok.token = c :: cs) : inWord c = false := by
  cases h with
  | operator | shift | closeBracket | square | param => cases htype
  | openBracket => cases htoken; decide
  | word _ h => exact absurd htype (wordToken_not_bracket h)

/-- A text in square brackets is taken as a whole. -/
theorem Shape.squareBrackets_eq {tok : ScriptToken} (h : Shape tok) {cs : Text}
    (htoken : tok.token = 91 :: cs) : squareBrackets 0 tok.token = (tok.token, []) := by
  cases h with
  | @operator c hc =>
    cases htoken
    exact absurd hc (by decide)
  | shift hc =>
    cases htoken
    exact absurd hc (by decide)
  | openBracket | closeBracket | param => cases htoken
  | square h => exact h
  | word hword h =>
    rw [(wordToken_eq_ok h).1] at htoken
    exact absurd (hword 91 (htoken ▸ List.mem_cons_self)) (by decide)

/-- **What is written behind a token** does not run into it. -/
theorem fits_behind {tok : ScriptToken} {tokens : List ScriptToken} (h : Scanned (tok :: tokens)) :
    Fits tok (behind tok tokens) := by
  obtain ⟨hshape, hclosed, hscanned⟩ := h
  intro c cs htoken
  cases tokens with
  | nil =>
    refine ⟨fun _ d ds hd => (by cases hd), ?_⟩
    rintro rfl
    rw [behind, List.append_nil]
    exact hshape.squareBrackets_eq htoken
  | cons next tokens =>
    have hclosed := hclosed (List.cons_ne_nil _ _)
    refine ⟨fun hin d ds hd => ?_, ?_⟩
    · rw [behind] at hd
      split_ifs at hd
      · cases hd
        decide
      · rw [render_cons] at hd
        obtain ⟨pc, hpc, hsquare, hopen⟩ := hshape.last hclosed
        obtain ⟨fc, fcs, hfc, -, hfsquare, hfcomma, -⟩ := hscanned.1.head
        have hneeds : needsSpaceBetween (upperHex tok.token) (upperHex next.token) = true ∨ fc = 41 := by
          rw [needsSpaceBetween, hpc, hfc]
          have hpopen : pc ≠ 40 := fun heq => by
            rw [hshape.not_inWord (hopen.mp heq) htoken] at hin
            cases hin
          by_cases hclose : fc = 41 <;> simp [hclose, hfsquare, hfcomma, hpopen, hsquare]
        rcases hneeds with hneeds | rfl
        · rw [if_pos hneeds] at hd
          cases hd
          decide
        · split_ifs at hd
          · cases hd
            decide
          · rw [hfc] at hd
            cases hd
            decide
    · rintro rfl
      exact (hclosed cs htoken).2 _

/-- What stands in front of tokens that are written out: nothing or a space, or a token. -/
inductive Front : Text → Bool → Bool → Prop
  | start : Front [] true false
  | token {tok : ScriptToken} (h : Shape tok) (hclosed : Closed tok) :
      Front (upperHex tok.token) false (tok.tokenType = .openBracket)

/-- The space in front of a token: a command has none only behind an opening bracket. -/
theorem Front.scan_eq {prevtok : Text} {w opened : Bool} (h : Front prevtok w opened) {tok : ScriptToken}
    (hshape : Shape tok) (rest : Text) :
    ∃ w', scan w ((if needsSpaceBetween prevtok (upperHex tok.token) then [32] else []) ++ rest) =
      scan w' rest ∧ (tok.tokenType = .command → w' = !opened) := by
  cases h with
  | start => exact ⟨true, rfl, fun _ => rfl⟩
  | @token prev hprev hclosed =>
    obtain ⟨pc, hpc, hsquare, hopen⟩ := hprev.last hclosed
    obtain ⟨fc, fcs, hfc, -, hfsquare, hfcomma, hcommand⟩ := hshape.head
    by_cases hneeds : needsSpaceBetween (upperHex prev.token) (upperHex tok.token) = true
    · refine ⟨true, by rw [if_pos hneeds]; exact scan_space (by decide) rest, fun _ => ?_⟩
      have hpopen : pc ≠ 40 := by
        rintro rfl
        rw [needsSpaceBetween, hpc] at hneeds
        simp at hneeds
      simp [← hopen, hpopen]
    · refine ⟨false, by rw [if_neg hneeds]; rfl, fun htype => ?_⟩
      have hpopen : pc = 40 := by
        by_contra hne
        rw [needsSpaceBetween, hpc, hfc] at hneeds
        simp [hcommand htype, hfsquare, hfcomma, hne, hsquare] at hneeds
      simp [hopen.mp hpopen]

/-- **What was written out is read again,** unless a command stands right behind an opening bracket. -/
theorem scan_render {tokens : List ScriptToken} {prevtok : Text} {w opened : Bool}
    (hfront : Front prevtok w opened) (h : Scanned tokens) :
    (scan w (render prevtok tokens)).toOption =
      if commandBehindBracket opened tokens then none else some (tokens.map upper) := by
  induction tokens generalizing prevtok w opened with
  | nil => rfl
  | cons tok tokens ih =>
    obtain ⟨hshape, hclosed, hscanned⟩ := id h
    obtain ⟨w', hscan, hcommand⟩ := hfront.scan_eq hshape (upperHex tok.token ++ behind tok tokens)
    obtain ⟨c, cs, hcs, hspace, hnext⟩ := nextToken_of_shape (w := w') hshape (fits_behind h)
    have hrest : (scan false (behind tok tokens)).toOption =
        if commandBehindBracket (tok.tokenType = .openBracket) tokens then none
        else some (tokens.map upper) := by
      cases tokens with
      | nil => rfl
      | cons next tokens =>
        rw [behind]
        by_cases hspaced : spaced tok = true
        · rw [if_pos hspaced]
          have hopen : (decide (tok.tokenType = .openBracket)) = false := by
            rw [decide_eq_false_iff_not]
            intro htype
            simp [spaced, htype] at hspaced
          rw [scan_space (by decide), hopen]
          exact ih .start hscanned
        · rw [if_neg hspaced]
          exact ih (.token hshape (hclosed (List.cons_ne_nil _ _))) hscanned
    rw [render_cons, hscan, hcs, scan_cons hspace, commandBehindBracket]
    by_cases hbehind : tok.tokenType = .command ∧ w' = false
    · rw [if_pos hbehind] at hnext
      have hopened : opened = true := by
        have := hcommand hbehind.1
        rw [hbehind.2] at this
        simpa using this.symm
      rw [if_pos (by simp [hopened, hbehind.1])]
      cases hcase : nextToken w' c cs with
      | error e => rfl
      | ok p => rw [hcase] at hnext; cases hnext
    · rw [if_neg hbehind] at hnext
      have hno : (opened && decide (tok.tokenType = .command)) = false := by
        rw [Bool.and_eq_false_iff, decide_eq_false_iff_not]
        by_cases htype : tok.tokenType = .command
        · left
          have hw := hcommand htype
          cases opened with
          | false => rfl
          | true => exact absurd ⟨htype, hw⟩ hbehind
        · exact .inr htype
      cases hcase : nextToken w' c cs with
      | error e => rw [hcase] at hnext; cases hnext
      | ok p =>
        rw [hcase] at hnext
        obtain rfl : p = (upper tok, behind tok tokens) := by simpa [Except.toOption] using hnext
        rw [hno, Bool.false_or]
        simp only [bind, Except.bind]
        cases hmore : scan false (behind tok tokens) with
        | error e =>
          rw [hmore] at hrest
          split_ifs at hrest ⊢
          · rfl
          · cases hrest
        | ok rest =>
          rw [hmore] at hrest
          split_ifs at hrest ⊢
          · cases hrest
          · obtain rfl : rest = tokens.map upper := by simpa [Except.toOption] using hrest
            rfl

/-! ## Trimming -/

/-- A text with its trailing white space off. -/
def rtrim (t : Text) : Text := t.rdropWhile MiniNumber.isSpace

theorem rtrim_append {a b : Text} (h : ∃ c ∈ b, MiniNumber.isSpace c = false) : rtrim (a ++ b) = a ++ rtrim b := by
  have hdrop : ∀ l : Text, (∃ c ∈ l, MiniNumber.isSpace c = false) →
      (l ++ a.reverse).dropWhile MiniNumber.isSpace = l.dropWhile MiniNumber.isSpace ++ a.reverse := by
    rintro l ⟨c, hc, hspace⟩
    rw [List.dropWhile_append, if_neg]
    rw [List.isEmpty_iff, List.dropWhile_eq_nil_iff]
    exact fun hall => by simp [hall c hc] at hspace
  obtain ⟨c, hc, hspace⟩ := h
  rw [rtrim, List.rdropWhile, List.reverse_append, hdrop b.reverse ⟨c, List.mem_reverse.mpr hc, hspace⟩,
    List.reverse_append, List.reverse_reverse, rtrim, List.rdropWhile]

theorem rtrim_append_space (t : Text) : rtrim (t ++ [32]) = rtrim t := by
  rw [rtrim, List.rdropWhile_concat_pos _ _ _ (by decide), rtrim]

theorem rtrim_rtrim (t : Text) : rtrim (rtrim t) = rtrim t := List.rdropWhile_idempotent _ _

theorem rtrim_length_lt {t : Text} (h : ∃ c, t.getLast? = some c ∧ MiniNumber.isSpace c = true) :
    (rtrim t).length < t.length := by
  obtain ⟨c, hlast, hspace⟩ := h
  obtain ⟨init, rfl⟩ := List.getLast?_eq_some_iff.mp hlast
  rw [rtrim, List.rdropWhile_concat_pos _ _ _ hspace]
  have hstart := (List.rdropWhile_prefix MiniNumber.isSpace init).length_le
  rw [List.length_append, List.length_singleton]
  exact Nat.lt_succ_of_le hstart

theorem rtrim_eq_self {t : Text} (h : ∀ c, t.getLast? = some c → MiniNumber.isSpace c = false) :
    rtrim t = t := by
  rcases List.eq_nil_or_concat t with rfl | ⟨init, c, rfl⟩
  · rfl
  · have hspace := h c (by simp)
    rw [List.concat_eq_append] at *
    rw [rtrim, List.rdropWhile_concat_neg _ _ _ (by simp [hspace])]

/-- The tokens with the white space at the end of the last one off. -/
def trimLast : List ScriptToken → List ScriptToken
  | [] => []
  | [tok] => [{ tok with token := rtrim tok.token }]
  | tok :: next :: tokens => tok :: trimLast (next :: tokens)

/-- A text that ends with a character of a word has nothing to trim. -/
theorem rtrim_word {t : Text} (h : ∀ c ∈ t, inWord c = true) : rtrim t = t :=
  rtrim_eq_self fun c hc => (inWord_spec c (h c (List.mem_of_getLast? hc))).1

/-- What is left of a text in square brackets is a text in square brackets. -/
theorem squareBrackets_rtrim {cs : Text} (h : squareBrackets 0 (91 :: cs) = (91 :: cs, [])) :
    ∃ cs', rtrim (91 :: cs) = 91 :: cs' ∧ squareBrackets 0 (91 :: cs') = (91 :: cs', []) := by
  obtain ⟨rest, hrest⟩ := List.rdropWhile_prefix MiniNumber.isSpace (91 :: cs)
  obtain ⟨cs', hcs'⟩ : ∃ cs', rtrim (91 :: cs) = 91 :: cs' := by
    cases ht : rtrim (91 :: cs) with
    | nil =>
      have hall := List.rdropWhile_eq_nil_iff.mp ht
      exact absurd (hall 91 List.mem_cons_self) (by decide)
    | cons c cs' =>
      rw [rtrim] at ht
      rw [ht, List.cons_append, List.cons.injEq] at hrest
      exact ⟨cs', by rw [hrest.1]⟩
  refine ⟨cs', hcs', ?_⟩
  rw [rtrim] at hcs'
  rw [hcs'] at hrest
  have happend := squareBrackets_append 0 (91 :: cs')
  by_cases hopen : (squareBrackets 0 (91 :: cs')).2 = []
  · rw [hopen, List.append_nil] at happend
    exact Prod.ext happend hopen
  · -- a text that is closed here is closed with more behind it
    have hclosed := (squareBrackets_closed hopen).2 ((squareBrackets 0 (91 :: cs')).2 ++ rest)
    rw [← List.append_assoc, happend, hrest, h] at hclosed
    exact absurd (List.append_eq_nil_iff.mp (Prod.mk.inj hclosed).2.symm).1 hopen

/-- Only the text of square brackets can end with white space. -/
theorem Shape.rtrim {tok : ScriptToken} (h : Shape tok) :
    Shape { tok with token := Contract.rtrim tok.token } ∧
      Contract.rtrim (upperHex tok.token) = upperHex (Contract.rtrim tok.token) ∧
      (upperHex (Contract.rtrim tok.token)).head? = (upperHex tok.token).head? := by
  have hsame : Contract.rtrim tok.token = tok.token →
      Contract.rtrim (upperHex tok.token) = upperHex tok.token → Shape { tok with token := Contract.rtrim tok.token } ∧
        Contract.rtrim (upperHex tok.token) = upperHex (Contract.rtrim tok.token) ∧
        (upperHex (Contract.rtrim tok.token)).head? = (upperHex tok.token).head? := by
    intro htoken hupper
    rw [htoken]
    exact ⟨h, hupper, rfl⟩
  cases h with
  | @operator c hc =>
    have hspace : ∀ d, [c].getLast? = some d → MiniNumber.isSpace d = false := by
      rintro d ⟨⟩
      exact (operator_spec c hc).1
    exact hsame (rtrim_eq_self hspace) (rtrim_eq_self hspace)
  | shift hc => rcases hc with rfl | rfl <;> exact hsame (by decide) (by decide)
  | openBracket => exact hsame (by decide) (by decide)
  | closeBracket => exact hsame (by decide) (by decide)
  | @square cs h =>
    obtain ⟨cs', hcs', hsquare⟩ := squareBrackets_rtrim h
    rw [upperHex_of_ne (by decide), hcs', upperHex_of_ne (by decide)]
    exact ⟨.square hsquare, rfl, rfl⟩
  | @param cs hcs =>
    have htrim := rtrim_word (List.forall_mem_cons.mpr ⟨inWord_dollar, hcs⟩)
    exact hsame htrim (by rw [upperHex_of_ne (by decide), htrim])
  | word hword h =>
    have htoken := (wordToken_eq_ok h).1
    exact hsame (htoken ▸ rtrim_word hword) (htoken ▸ rtrim_word (word_upperHex hword h).1)

theorem trimLast_ne_nil {tokens : List ScriptToken} (h : tokens ≠ []) : trimLast tokens ≠ [] := by
  match tokens, h with
  | [tok], _ => exact List.cons_ne_nil _ _
  | tok :: next :: tokens, _ => exact List.cons_ne_nil _ _

theorem behind_eq (tok : ScriptToken) {tokens : List ScriptToken} (h : tokens ≠ []) :
    behind tok tokens = if spaced tok then 32 :: render [] tokens else render (upperHex tok.token) tokens := by
  cases tokens with
  | nil => exact absurd rfl h
  | cons next tokens => rfl

theorem exists_mem_render {tokens : List ScriptToken} (h : Scanned tokens) (hne : tokens ≠ [])
    (prevtok : Text) : ∃ c ∈ render prevtok tokens, MiniNumber.isSpace c = false := by
  cases tokens with
  | nil => exact absurd rfl hne
  | cons tok tokens =>
    obtain ⟨c, cs, hc, hspace, -⟩ := h.1.head
    refine ⟨c, ?_, hspace⟩
    rw [render_cons, hc]
    simp

/-- **Trimming** a text that was written out trims its last token. -/
theorem rtrim_render {tokens : List ScriptToken} (h : Scanned tokens) (prevtok : Text) :
    rtrim (render prevtok tokens) = render prevtok (trimLast tokens) := by
  induction tokens generalizing prevtok with
  | nil => rfl
  | cons tok tokens ih =>
    obtain ⟨hshape, -, hscanned⟩ := id h
    cases tokens with
    | nil =>
      obtain ⟨-, hupper, hhead⟩ := hshape.rtrim
      obtain ⟨c, cs, hc, hspace, -⟩ := hshape.head
      have hneeds : needsSpaceBetween prevtok (upperHex (rtrim tok.token)) =
          needsSpaceBetween prevtok (upperHex tok.token) := by
        simp only [needsSpaceBetween, hhead]
      rw [trimLast, render_cons, render_cons, behind, behind, List.append_nil, List.append_nil,
        rtrim_append ⟨c, by rw [hc]; exact List.mem_cons_self, hspace⟩, hupper, hneeds]
    | cons next tokens =>
      have hne : next :: tokens ≠ [] := List.cons_ne_nil _ _
      rw [trimLast, render_cons, render_cons, ← List.append_assoc, ← List.append_assoc, behind_eq tok hne,
        behind_eq tok (trimLast_ne_nil hne)]
      obtain ⟨c, hc, hspace⟩ := exists_mem_render hscanned hne []
      by_cases hspaced : spaced tok = true
      · have hcons : rtrim (32 :: render [] (next :: tokens)) = 32 :: rtrim (render [] (next :: tokens)) :=
          rtrim_append (a := [32]) ⟨c, hc, hspace⟩
        rw [if_pos hspaced, if_pos hspaced, rtrim_append ⟨c, List.mem_cons_of_mem _ hc, hspace⟩, hcons,
          ih hscanned]
      · rw [if_neg hspaced, if_neg hspaced, rtrim_append (exists_mem_render hscanned hne _), ih hscanned]

theorem scanned_trimLast {tokens : List ScriptToken} (h : Scanned tokens) : Scanned (trimLast tokens) := by
  induction tokens with
  | nil => trivial
  | cons tok tokens ih =>
    obtain ⟨hshape, hclosed, hscanned⟩ := h
    cases tokens with
    | nil => exact ⟨hshape.rtrim.1, fun hne => absurd rfl hne, trivial⟩
    | cons next tokens => exact ⟨hshape, fun _ => hclosed (List.cons_ne_nil _ _), ih hscanned⟩

theorem commandBehindBracket_trimLast (opened : Bool) (tokens : List ScriptToken) :
    commandBehindBracket opened (trimLast tokens) = commandBehindBracket opened tokens := by
  induction tokens generalizing opened with
  | nil => rfl
  | cons tok tokens ih =>
    cases tokens with
    | nil => rfl
    | cons next tokens => rw [trimLast, commandBehindBracket, ih, ← commandBehindBracket]

/-- The fold of `cleanScript` writes the tokens out. -/
theorem foldl_cleanToken (tokens : List ScriptToken) (s : Text × Text) (h : s.1 = [] → s.2 = []) :
    (tokens.foldl cleanToken s).1 = s.1 ++ render s.2 tokens ++
      (if (tokens.getLast?.any spaced) then [32] else []) := by
  induction tokens generalizing s with
  | nil => simp [render]
  | cons tok tokens ih =>
    obtain ⟨ret, prevtok⟩ := s
    have hspace : (if !ret.isEmpty && needsSpaceBetween prevtok (upperHex tok.token) then ret ++ [32] else ret) =
        ret ++ if needsSpaceBetween prevtok (upperHex tok.token) then [32] else [] := by
      cases ret with
      | nil =>
        have hprev : prevtok = [] := h rfl
        rw [hprev]
        rfl
      | cons c ret => cases needsSpaceBetween prevtok (upperHex tok.token) <;> simp
    have hstep : cleanToken (ret, prevtok) tok =
        if spaced tok then
          (ret ++ (if needsSpaceBetween prevtok (upperHex tok.token) then [32] else []) ++ upperHex tok.token ++
            [32], [])
        else
          (ret ++ (if needsSpaceBetween prevtok (upperHex tok.token) then [32] else []) ++ upperHex tok.token,
            upperHex tok.token) := by
      simp only [cleanToken, hspace]
    have hstate : (cleanToken (ret, prevtok) tok).1 = [] → (cleanToken (ret, prevtok) tok).2 = [] := by
      rw [hstep]
      split_ifs
      all_goals simp
    rw [List.foldl_cons, ih _ hstate, render_cons]
    cases tokens with
    | nil =>
      rw [hstep]
      by_cases hspaced : spaced tok = true <;> simp [hspaced, behind, render]
    | cons next tokens =>
      rw [List.getLast?_cons_cons, hstep, behind]
      by_cases hspaced : spaced tok = true <;> simp [hspaced]

/-- **The cleaned text** of tokens. -/
theorem trim_foldl {tokens : List ScriptToken} (h : Scanned tokens) :
    trim (tokens.foldl cleanToken ([], [])).1 = render [] (trimLast tokens) := by
  rw [foldl_cleanToken tokens ([], []) fun _ => rfl, trim, ← rtrim, List.nil_append]
  have hdrop : ∀ rest, tokens ≠ [] →
      (render [] tokens ++ rest).dropWhile MiniNumber.isSpace = render [] tokens ++ rest := by
    intro rest hne
    cases tokens with
    | nil => exact absurd rfl hne
    | cons tok tokens =>
      obtain ⟨c, cs, hc, hspace, -⟩ := h.1.head
      rw [render_cons, hc]
      exact List.dropWhile_cons_of_neg (by simp [hspace])
  cases tokens with
  | nil => rfl
  | cons tok tokens =>
    rw [hdrop _ (List.cons_ne_nil _ _)]
    split_ifs
    · rw [rtrim_append_space, rtrim_render h]
    · rw [List.append_nil, rtrim_render h]

/-! ## Cleaning keeps the meaning -/

/-- The script ends within square brackets, with white space at the end: the last token ends with white
space. -/
def EndsWithSpace (tokens : List ScriptToken) : Prop :=
  ∃ tok, tokens.getLast? = some tok ∧ ∃ c, tok.token.getLast? = some c ∧ MiniNumber.isSpace c = true

theorem trimLast_map_upper {tokens : List ScriptToken} (h : Scanned tokens) :
    trimLast (tokens.map upper) = (trimLast tokens).map upper := by
  induction tokens with
  | nil => rfl
  | cons tok tokens ih =>
    cases tokens with
    | nil =>
      simp only [List.map_cons, List.map_nil, trimLast, upper, h.1.rtrim.2.1]
    | cons next tokens =>
      have hih := ih h.2.2
      rw [List.map_cons] at hih
      rw [List.map_cons, List.map_cons, trimLast, hih, trimLast, List.map_cons]

theorem trimLast_trimLast (tokens : List ScriptToken) : trimLast (trimLast tokens) = trimLast tokens := by
  induction tokens with
  | nil => rfl
  | cons tok tokens ih =>
    cases tokens with
    | nil => simp only [trimLast, rtrim_rtrim]
    | cons next tokens =>
      obtain ⟨next', tokens', htrim⟩ := List.exists_cons_of_ne_nil (trimLast_ne_nil (List.cons_ne_nil next tokens))
      rw [trimLast, htrim, trimLast, ← htrim, ih]

theorem render_map_upper (prevtok : Text) (tokens : List ScriptToken) :
    render prevtok (tokens.map upper) = render prevtok tokens := by
  induction tokens generalizing prevtok with
  | nil => rfl
  | cons tok tokens ih =>
    rw [List.map_cons, render_cons, render_cons]
    have hbehind : behind (upper tok) (tokens.map upper) = behind tok tokens := by
      cases tokens with
      | nil => rfl
      | cons next tokens =>
        have hne : (next :: tokens).map upper ≠ [] := by simp
        have hspaced : spaced (upper tok) = spaced tok := rfl
        have hhex : upperHex (upper tok).token = upperHex tok.token := upperHex_upperHex _
        rw [behind_eq _ hne, behind_eq tok (List.cons_ne_nil _ _), ih, ih, hspaced, hhex]
    rw [hbehind]
    simp [upper]

/-- **What the tokenizer makes of a cleaned script.** -/
theorem tokenize_cleanScript {zScript : Text} {tokens : List ScriptToken} (h : tokenize zScript = .ok tokens) :
    cleanScript zScript = render [] (trimLast tokens) ∧
      (tokenize (cleanScript zScript)).toOption =
        if commandBehindBracket false tokens then none else some ((trimLast tokens).map upper) := by
  have hscanned := scanned_of_scan h
  have hclean : cleanScript zScript = render [] (trimLast tokens) := by
    rw [cleanScript, h]
    exact trim_foldl hscanned
  refine ⟨hclean, ?_⟩
  rw [hclean, tokenize_eq_scan, scan_render .start (scanned_trimLast hscanned), commandBehindBracket_trimLast]

/-- **Cleaning twice** is cleaning once, for every text. -/
theorem cleanScript_cleanScript (zScript : Text) : cleanScript (cleanScript zScript) = cleanScript zScript := by
  cases h : tokenize zScript with
  | error e =>
    have hself : cleanScript zScript = zScript := by rw [cleanScript, h]
    rw [hself, hself]
  | ok tokens =>
    obtain ⟨hclean, hagain⟩ := tokenize_cleanScript h
    cases hcase : tokenize (cleanScript zScript) with
    | error e => rw [cleanScript, hcase]
    | ok tokens' =>
      rw [hcase] at hagain
      split_ifs at hagain
      · cases hagain
      · obtain rfl : tokens' = (trimLast tokens).map upper := by simpa [Except.toOption] using hagain
        rw [(tokenize_cleanScript hcase).1, trimLast_map_upper (scanned_trimLast (scanned_of_scan h)),
          trimLast_trimLast, render_map_upper, hclean]

theorem trimLast_eq_self {tokens : List ScriptToken} (h : ¬ EndsWithSpace tokens) :
    trimLast tokens = tokens := by
  induction tokens with
  | nil => rfl
  | cons tok tokens ih =>
    cases tokens with
    | nil =>
      have hself : rtrim tok.token = tok.token := by
        refine rtrim_eq_self fun c hc => ?_
        by_contra hspace
        exact h ⟨tok, rfl, c, hc, by simpa using hspace⟩
      rw [trimLast, hself]
    | cons next tokens =>
      rw [trimLast, ih fun ⟨tok', hlast, hspace⟩ => h ⟨tok', by rw [List.getLast?_cons_cons, hlast], hspace⟩]

/-- Trimming shortens the last token where it ends with white space. -/
theorem map_upper_trimLast_ne {tokens : List ScriptToken} (h : EndsWithSpace tokens) :
    (trimLast tokens).map upper ≠ tokens.map upper := by
  induction tokens with
  | nil =>
    obtain ⟨tok, hlast, -⟩ := h
    cases hlast
  | cons tok tokens ih =>
    obtain ⟨last, hlast, hspace⟩ := h
    cases tokens with
    | nil =>
      cases hlast
      intro heq
      have hlen := congrArg (List.map fun t : ScriptToken => t.token.length) heq
      simp only [trimLast, List.map_cons, List.map_nil, upper, upperHex_length, List.cons.injEq,
        and_true] at hlen
      exact (rtrim_length_lt hspace).ne hlen
    | cons next tokens =>
      rw [List.getLast?_cons_cons] at hlast
      rw [trimLast, List.map_cons, List.map_cons]
      exact fun heq => ih ⟨last, hlast, hspace⟩ (List.cons.inj heq).2

/-- **When cleaning keeps the meaning of a script.** The cleaned script has the same tokens up to the case of
hex digits, and is its own cleaned script, if and only if no command stands right behind an opening bracket
and the script does not end with white space in square brackets that nothing closes. -/
theorem cleanScript_meaning_iff (zScript : Text) (tokens : List ScriptToken)
    (h : tokenize zScript = .ok tokens) :
    ((∃ tokens', tokenize (cleanScript zScript) = .ok tokens' ∧ tokens'.map upper = tokens.map upper) ∧
      cleanScript (cleanScript zScript) = cleanScript zScript) ↔
    commandBehindBracket false tokens = false ∧ ¬ EndsWithSpace tokens := by
  have hupper : ∀ l : List ScriptToken, (l.map upper).map upper = l.map upper := by
    intro l
    rw [List.map_map]
    exact List.map_congr_left fun tok _ => by simp [upper]
  have hagain := (tokenize_cleanScript h).2
  constructor
  · rintro ⟨⟨tokens', htokens', hsame⟩, -⟩
    rw [htokens'] at hagain
    split_ifs at hagain with hcommand
    · cases hagain
    · obtain rfl : tokens' = (trimLast tokens).map upper := by simpa [Except.toOption] using hagain
      rw [hupper] at hsame
      exact ⟨by simpa using hcommand, fun hends => map_upper_trimLast_ne hends hsame⟩
  · rintro ⟨hcommand, hends⟩
    refine ⟨⟨tokens.map upper, ?_, hupper tokens⟩, cleanScript_cleanScript zScript⟩
    rw [hcommand, if_neg Bool.false_ne_true, trimLast_eq_self hends] at hagain
    cases hcase : tokenize (cleanScript zScript) with
    | error e => rw [hcase] at hagain; cases hagain
    | ok tokens' =>
      rw [hcase] at hagain
      simpa [Except.toOption] using hagain

/-- A script that is cleaned. -/
theorem cleanScript_meaning_iff_return :
    ((∃ tokens', tokenize (cleanScript (MiniNumber.ascii " RETURN  ( 0xab EQ x ) ")) = .ok tokens' ∧
        tokens'.map upper =
          [⟨.command, MiniNumber.ascii "RETURN"⟩, ⟨.openBracket, [40]⟩, ⟨.value, MiniNumber.ascii "0xAB"⟩,
            ⟨.operator, MiniNumber.ascii "EQ"⟩, ⟨.variable, MiniNumber.ascii "x"⟩, ⟨.closeBracket, [41]⟩]) ∧
      cleanScript (cleanScript (MiniNumber.ascii " RETURN  ( 0xab EQ x ) ")) =
        cleanScript (MiniNumber.ascii " RETURN  ( 0xab EQ x ) ")) := by
  have h := (cleanScript_meaning_iff (MiniNumber.ascii " RETURN  ( 0xab EQ x ) ")
    [⟨.command, MiniNumber.ascii "RETURN"⟩, ⟨.openBracket, [40]⟩, ⟨.value, MiniNumber.ascii "0xab"⟩,
      ⟨.operator, MiniNumber.ascii "EQ"⟩, ⟨.variable, MiniNumber.ascii "x"⟩, ⟨.closeBracket, [41]⟩]
    (by decide +kernel)).mpr ⟨by decide +kernel, ?_⟩
  · exact h
  · rintro ⟨tok, hlast, c, hc, hspace⟩
    cases hlast
    cases hc
    exact absurd hspace (by decide)

/-- A command behind a bracket: the cleaned script is refused. -/
theorem not_cleanScript_meaning :
    (tokenize (MiniNumber.ascii "( LET")).toOption.isSome = true ∧
      ¬ ∃ tokens', tokenize (cleanScript (MiniNumber.ascii "( LET")) = .ok tokens' := by
  refine ⟨by decide +kernel, ?_⟩
  rintro ⟨tokens', htokens'⟩
  have hnone : (tokenize (cleanScript (MiniNumber.ascii "( LET"))).toOption = none := by decide +kernel
  rw [htokens'] at hnone
  cases hnone

end Contract

end Minima.Kissvm
