import Minima.Kissvm.StateFunctions
import Minima.Kissvm.Termination
import Minima.Lib.Occurrences

/-! # `FUNCTION` as a substitution

`FUNCTION` puts its parameters into a text one behind the other, each with `REPLACE::safeReplaceAll`:
a search for a literal text whose matches go through the formatter of the regular expressions. What it
is meant to do is one substitution of all references `$1`, `$2`, … at once.

* **`REPLACE.safeReplaceAll`** — the replacement, with the formatter.
* **`Substitution.simultaneous`** — the substitution of all references at once.
* **`Substitution.functionText_eq`** — when the first does the second. -/

namespace Minima.Kissvm

open Occurrences

namespace REPLACE

/-- `match_results::format` with the rules of ECMAScript, for a match without groups: the text since
the last match, the match and the text behind it. -/
def format (segment search after : Text) : Text → Text
  | [] => []
  | c :: cs =>
    if c ≠ 36 then c :: format segment search after cs
    else match cs with
      | [] => [36]
      | e :: es =>
        if e = 36 then 36 :: format segment search after es
        else if e = 38 then search ++ format segment search after es
        else if e = 96 then segment ++ format segment search after es
        else if e = 39 then after ++ format segment search after es
        else if MiniNumber.isDigit e then
          match es with
          | [] => if e = 48 then search else []
          | f :: fs =>
            if MiniNumber.isDigit f then
              (if e = 48 ∧ f = 48 then search else []) ++ format segment search after fs
            else (if e = 48 then search else []) ++ format segment search after (f :: fs)
        else 36 :: format segment search after (e :: es)

/-- The next match. An empty one is not found twice at one place. -/
def nextMatch (zSearch : Text) (again : Bool) (rest : Text) : Option (Text × Text) :=
  if again && zSearch.isEmpty then
    match rest with
    | [] => none
    | c :: cs => some ([c], cs)
  else findFirst zSearch rest

/-- The check of the length of the result. -/
def checkLength (result : Text) : Scripted Text :=
  if Value.maxDataSize < result.length then .error (.execution "Replace String too long! ")
  else .ok result

/-- The text in front of a match, behind the result. -/
def appendSegment (result segment : Text) : Scripted Text :=
  if segment.isEmpty then .ok result else checkLength (result ++ segment)

/-- The loop over the matches. `rest` is the text behind the last one. -/
def replaceLoop (zSearch zReplace : Text) : (fuel : ℕ) → (again : Bool) → (result rest : Text) →
    Scripted Text
  | 0, _, result, rest => checkLength (result ++ rest)
  | fuel + 1, again, result, rest =>
    match nextMatch zSearch again rest with
    | none => checkLength (result ++ rest)
    | some (segment, after) => do
      let result ← appendSegment result segment
      let result ← checkLength (result ++ format segment zSearch after zReplace)
      replaceLoop zSearch zReplace fuel true result after

/-- `safeReplaceAll`. Every match but the first takes a character with it. -/
def safeReplaceAll (zStart zSearch zReplace : Text) : Scripted Text :=
  if zStart.isEmpty then .ok []
  else replaceLoop zSearch zReplace (zStart.length + 2) false [] zStart

/-! ## The formatter -/

/-- The characters that mean something behind a `$`. -/
def isSpecial (c : Byte) : Bool := c = 36 || c = 38 || c = 96 || c = 39 || MiniNumber.isDigit c

/-- A `$` of the text means something to the formatter. -/
def escapes : Text → Bool
  | [] => false
  | [_] => false
  | c :: e :: es => (c = 36 && isSpecial e) || escapes (e :: es)

/-- **The formatter leaves a text** as it is if no `$` in it means something. -/
theorem format_eq_self (segment search after : Text) {zReplace : Text} (h : escapes zReplace = false) :
    format segment search after zReplace = zReplace := by
  induction zReplace with
  | nil => rw [format]
  | cons c cs ih =>
    cases cs with
    | nil =>
      rw [format]
      by_cases hc : c = 36
      · rw [if_neg (not_not.mpr hc), hc]
      · rw [if_pos hc, format]
    | cons e es =>
      rw [escapes, Bool.or_eq_false_iff] at h
      rw [format.eq_def]
      dsimp only
      by_cases hc : c = 36
      · have hspecial : isSpecial e = false := by
          rw [decide_eq_true hc, Bool.true_and] at h
          exact h.1
        simp only [isSpecial, Bool.or_eq_false_iff, decide_eq_false_iff_not] at hspecial
        obtain ⟨⟨⟨⟨h1, h2⟩, h3⟩, h4⟩, h5⟩ := hspecial
        rw [if_neg (not_not.mpr hc)]
        simp only [if_neg h1, if_neg h2, if_neg h3, if_neg h4, h5, Bool.false_eq_true, if_false]
        rw [ih h.2, hc]
      · rw [if_pos hc, ih h.2]

/-- Two dollar signs are one, `$&` is the match, and there are no groups. -/
example : format [65] (MiniNumber.ascii "$1") [66] (MiniNumber.ascii "$$-$&-$7-$z")
    = MiniNumber.ascii "$-$1--$z" := by decide +kernel

/-! ## The replacement of a word with one mark -/

theorem nextMatch_cons (d : Byte) (ds : Text) (again : Bool) (rest : Text) :
    nextMatch (d :: ds) again rest = findFirst (d :: ds) rest := by
  unfold nextMatch
  rw [List.isEmpty_cons, Bool.and_false, if_neg Bool.false_ne_true]

theorem checkLength_eq_ok {result t : Text} (h : checkLength result = .ok t) : t = result := by
  unfold checkLength at h
  split_ifs at h
  exact (Except.ok.inj h).symm

theorem appendSegment_eq_ok {result segment t : Text} (h : appendSegment result segment = .ok t) :
    t = result ++ segment := by
  unfold appendSegment at h
  split_ifs at h with hempty
  · rw [List.isEmpty_iff.mp hempty, List.append_nil]
    exact (Except.ok.inj h).symm
  · exact checkLength_eq_ok h

/-- A turn of a loop that ends well. -/
theorem replaceLoop_eq_ok {zSearch zReplace : Text} {fuel : ℕ} {again : Bool}
    {result rest segment after t : Text} (hnext : nextMatch zSearch again rest = some (segment, after))
    (h : replaceLoop zSearch zReplace (fuel + 1) again result rest = .ok t) :
    replaceLoop zSearch zReplace fuel true
      (result ++ segment ++ format segment zSearch after zReplace) after = .ok t := by
  rw [replaceLoop, hnext] at h
  obtain ⟨result', hsegment, h⟩ := ExpressionParser.bind_eq_ok.mp h
  obtain ⟨result'', hformatted, h⟩ := ExpressionParser.bind_eq_ok.mp h
  rwa [checkLength_eq_ok hformatted, appendSegment_eq_ok hsegment] at h

/-- The word occurs at least as often as it is one of the parts. -/
theorem countP_le_occ {ι : Type} {d : Byte} {ds : Text} (hd : d ∉ ds) (before : ι → Text)
    (marked : ι → Bool) (hmarked : ∀ i, marked i → before i = d :: ds) (parts : List ι) :
    parts.countP marked ≤ occ (d :: ds) (parts.flatMap before) := by
  induction parts with
  | nil => exact Nat.zero_le _
  | cons i parts ih =>
    rw [List.flatMap_cons]
    by_cases hi : marked i = true
    · rw [List.countP_cons_of_pos hi, hmarked i hi, occ_mark hd]
      omega
    · rw [List.countP_cons_of_neg hi]
      exact ih.trans (occ_le_append ..)

/-- **The loop replaces the parts that are the word**, if the word has no other occurrence than these:
`parts` are the parts of the text behind `pre`, `before` is what they read and `behind` what they shall
read. The word has its first letter only there. -/
theorem replaceLoop_parts {ι : Type} {d : Byte} {ds zReplace : Text} (hd : d ∉ ds)
    (before behind : ι → Text) (marked : ι → Bool) (hplain : ∀ i, marked i → before i = d :: ds ∧
      behind i = zReplace) (hrest : ∀ i, ¬ marked i → behind i = before i)
    (parts : List ι) (hformat : parts.any marked → escapes zReplace = false) {fuel : ℕ} {again : Bool}
    {result pre t : Text} (hfuel : parts.countP marked < fuel)
    (hocc : occ (d :: ds) (pre ++ parts.flatMap before) = parts.countP marked)
    (h : replaceLoop (d :: ds) zReplace fuel again result (pre ++ parts.flatMap before) = .ok t) :
    t = result ++ pre ++ parts.flatMap behind := by
  -- the parts that are not the word are gathered in `pre`
  induction parts generalizing fuel again result pre with
  | nil =>
    obtain ⟨fuel, rfl⟩ : ∃ n, fuel = n + 1 := ⟨fuel - 1, by rw [List.countP_nil] at hfuel; omega⟩
    rw [List.flatMap_nil, List.append_nil] at h hocc ⊢
    have hnone : nextMatch (d :: ds) again pre = none := by
      rw [nextMatch_cons]
      exact findFirst_eq_none (List.cons_ne_nil _ _) hocc
    rw [replaceLoop, hnone] at h
    exact checkLength_eq_ok h
  | cons i parts ih =>
    have hle := occ_le_append (d :: ds) pre ((i :: parts).flatMap before)
    rw [List.flatMap_cons] at hle hocc h ⊢
    by_cases hi : marked i = true
    · obtain ⟨hbefore, hbehind⟩ := hplain i hi
      have hescapes : escapes zReplace = false := hformat (by simp [hi])
      rw [List.countP_cons_of_pos hi] at hfuel hocc
      obtain ⟨fuel, rfl⟩ : ∃ n, fuel = n + 1 := ⟨fuel - 1, by omega⟩
      rw [hbefore] at hocc h
      have hmark := occ_mark hd (parts.flatMap before)
      have hle' := occ_le_append (d :: ds) pre (d :: ds ++ parts.flatMap before)
      have hparts : parts.countP marked ≤ occ (d :: ds) (parts.flatMap before) :=
        countP_le_occ hd before marked (fun i hi => (hplain i hi).1) parts
      have hnext : nextMatch (d :: ds) again (pre ++ (d :: ds ++ parts.flatMap before))
          = some (pre, parts.flatMap before) := by
        rw [nextMatch_cons]
        exact findFirst_eq _ _ _ (by omega)
      have hloop := replaceLoop_eq_ok hnext h
      rw [format_eq_self _ _ _ hescapes, ← List.nil_append (parts.flatMap before)] at hloop
      rw [ih (fun _ => hescapes) (by omega) (by rw [List.nil_append]; omega) hloop, hbehind]
      simp only [List.append_assoc, List.nil_append]
    · rw [List.countP_cons_of_neg hi] at hfuel hocc
      rw [← List.append_assoc] at hocc h
      rw [hrest i hi]
      have hany : parts.any marked → escapes zReplace = false := fun hp => hformat (by simp [hp])
      rw [ih hany hfuel hocc h, List.append_assoc, List.append_assoc, List.append_assoc]

/-- **Replacing a word with one mark** in a text that is put together from parts. -/
theorem safeReplaceAll_parts {ι : Type} {d : Byte} {ds zReplace : Text} (hd : d ∉ ds)
    (before behind : ι → Text) (marked : ι → Bool) (hplain : ∀ i, marked i → before i = d :: ds ∧
      behind i = zReplace) (hrest : ∀ i, ¬ marked i → behind i = before i)
    (parts : List ι) (hformat : parts.any marked → escapes zReplace = false) {t : Text}
    (hocc : occ (d :: ds) (parts.flatMap before) = parts.countP marked)
    (h : safeReplaceAll (parts.flatMap before) (d :: ds) zReplace = .ok t) :
    t = parts.flatMap behind := by
  have hcount : parts.countP marked ≤ (parts.flatMap before).length := by
    rw [← hocc]
    exact occ_le_length _ _
  unfold safeReplaceAll at h
  split_ifs at h with hempty
  · -- no part reads anything, so none is the word
    rw [List.isEmpty_iff] at hempty
    rw [hempty, occ] at hocc
    have hnone : ∀ i ∈ parts, behind i = before i := fun i hi =>
      hrest i (List.countP_eq_zero.mp hocc.symm i hi)
    rw [List.flatMap_congr hnone, hempty]
    exact (Except.ok.inj h).symm
  · have hfuel : parts.countP marked < (parts.flatMap before).length + 2 := by omega
    have hocc' : occ (d :: ds) ([] ++ parts.flatMap before) = parts.countP marked := hocc
    have hloop : replaceLoop (d :: ds) zReplace ((parts.flatMap before).length + 2) false []
        ([] ++ parts.flatMap before) = .ok t := h
    exact replaceLoop_parts hd before behind marked hplain hrest parts hformat hfuel hocc' hloop

end REPLACE

/-! ## The substitution of all references -/

namespace Substitution

/-- A `$` with the digits behind it, or another character. -/
inductive Piece where
  | char (c : Byte)
  | dollar (digits : Text)
  deriving DecidableEq

/-- A text as pieces. -/
def pieces : Text → List Piece
  | [] => []
  | c :: cs =>
    if c = 36 then
      let digits := cs.takeWhile MiniNumber.isDigit
      .dollar digits :: (pieces cs).drop digits.length
    else .char c :: pieces cs

/-- What a piece reads. -/
def Piece.text : Piece → Text
  | .char c => [c]
  | .dollar digits => 36 :: digits

/-- The parameter with this number, when the first one has the number `i`. -/
def parameter : (texts : List Text) → (i : ℕ) → Text → Option Text
  | [], _, _ => none
  | t :: texts, i, digits =>
    if digits = MiniNumber.digitsText i then some t else parameter texts (i + 1) digits

/-- A piece with the text of the parameter it refers to. -/
def Piece.substitute (texts : List Text) : Piece → Text
  | .char c => [c]
  | .dollar digits => (parameter texts 1 digits).getD (36 :: digits)

/-- The substitution of all references at once. -/
def simultaneous (texts : List Text) (script : Text) : Text :=
  (pieces script).flatMap (Piece.substitute texts)

/-- The digits behind a `$` are pieces of their own in front of the rest. -/
theorem pieces_digits {ds : Text} (h : ∀ c ∈ ds, MiniNumber.isDigit c = true) (cs : Text) :
    pieces (ds ++ cs) = ds.map .char ++ pieces cs := by
  induction ds with
  | nil => rfl
  | cons d ds ih =>
    have hd : d ≠ 36 := by
      rintro rfl
      exact absurd (h 36 List.mem_cons_self) (by decide)
    rw [List.cons_append, pieces, if_neg hd, ih fun c hc => h c (List.mem_cons_of_mem _ hc)]
    rfl

/-- **The pieces read the text.** -/
theorem flatMap_text_pieces (s : Text) : (pieces s).flatMap Piece.text = s := by
  induction hn : s.length using Nat.strong_induction_on generalizing s with
  | _ n ih =>
    cases s with
    | nil => rfl
    | cons c cs =>
      rw [List.length_cons] at hn
      by_cases hc : c = 36
      · have hdigits : ∀ d ∈ cs.takeWhile MiniNumber.isDigit, MiniNumber.isDigit d = true :=
          fun d hd => List.mem_takeWhile_imp hd
        have hsplit := List.takeWhile_append_dropWhile (p := MiniNumber.isDigit) (l := cs)
        have hlength := congrArg List.length hsplit
        rw [List.length_append] at hlength
        have hpieces := pieces_digits hdigits (cs.dropWhile MiniNumber.isDigit)
        rw [hsplit] at hpieces
        rw [pieces, if_pos hc]
        dsimp only
        rw [hpieces, List.drop_left' (List.length_map _), List.flatMap_cons, Piece.text,
          ih _ (by omega) _ rfl, List.cons_append, hsplit, hc]
      · rw [pieces, if_neg hc, List.flatMap_cons, Piece.text, ih _ (by omega) _ rfl]
        rfl

/-- No parameters, no substitution. -/
theorem simultaneous_nil (script : Text) : simultaneous [] script = script := by
  have hpiece : Piece.substitute [] = Piece.text := by
    funext p
    cases p <;> rfl
  rw [simultaneous, hpiece, flatMap_text_pieces]

/-- One more parameter behind the others. -/
theorem parameter_append (texts : List Text) (t : Text) (i : ℕ) (digits : Text) :
    parameter (texts ++ [t]) i digits
      = if digits = MiniNumber.digitsText (i + texts.length) then
          (parameter texts i digits).orElse fun _ => some t
        else parameter texts i digits := by
  induction texts generalizing i with
  | nil =>
    rw [List.nil_append, parameter, parameter]
    rfl
  | cons u texts ih =>
    rw [List.cons_append, parameter, parameter, ih]
    by_cases hi : digits = MiniNumber.digitsText i
    · rw [if_pos hi, if_pos hi]
      split_ifs <;> rfl
    · have hnumber : i + 1 + texts.length = i + (texts.length + 1) := by omega
      rw [if_neg hi, if_neg hi, List.length_cons, hnumber]

/-- The parameters in front have other numbers. -/
theorem parameter_digitsText (texts : List Text) {i k : ℕ} (h : i + texts.length ≤ k) :
    parameter texts i (MiniNumber.digitsText k) = none := by
  induction texts generalizing i with
  | nil => rfl
  | cons t texts ih =>
    rw [List.length_cons] at h
    have hne : MiniNumber.digitsText k ≠ MiniNumber.digitsText i := by
      intro heq
      have hvalue := congrArg MiniNumber.digitsValue heq
      rw [MiniNumber.digitsValue_digitsText, MiniNumber.digitsValue_digitsText] at hvalue
      omega
    rw [parameter, if_neg hne, ih (by omega)]

/-- The piece that refers to parameter `k`. -/
def reference (k : ℕ) : Piece := .dollar (MiniNumber.digitsText k)

/-- One more parameter puts its text for its references, and leaves the other pieces. -/
theorem substitute_append (texts : List Text) (t : Text) (p : Piece) :
    p.substitute (texts ++ [t])
      = if p = reference (texts.length + 1) then t else p.substitute texts := by
  cases p with
  | char c => exact (if_neg nofun).symm
  | dollar digits =>
    rw [Piece.substitute, parameter_append, Nat.add_comm 1]
    by_cases h : digits = MiniNumber.digitsText (texts.length + 1)
    · have hp : Piece.dollar digits = reference (texts.length + 1) := congrArg Piece.dollar h
      rw [if_pos h, if_pos hp, h, parameter_digitsText _ (by omega)]
      rfl
    · have hp : Piece.dollar digits ≠ reference (texts.length + 1) := fun heq =>
        h (Piece.dollar.inj heq)
      rw [if_neg h, if_neg hp]
      rfl

/-- A reference behind the parameters reads itself. -/
theorem substitute_reference (texts : List Text) :
    (reference (texts.length + 1)).substitute texts
      = 36 :: MiniNumber.digitsText (texts.length + 1) := by
  rw [reference, Piece.substitute, parameter_digitsText _ (by omega)]
  rfl

/-- The references of a script are literal: behind the parameters up to any one, `$` and the number of
the next one stand in the text where the script refers to it, and nowhere else; and if the script does
so, the formatter finds nothing to do in its text. -/
def Literal (texts : List Text) (script : Text) : Prop :=
  ∀ i, (h : i < texts.length) →
    occ (36 :: MiniNumber.digitsText (i + 1)) (simultaneous (texts.take i) script)
      = (pieces script).count (reference (i + 1)) ∧
    ((pieces script).count (reference (i + 1)) = 0 ∨ REPLACE.escapes texts[i] = false)

instance (texts : List Text) (script : Text) : Decidable (Literal texts script) :=
  inferInstanceAs (Decidable (∀ _, _))

/-- **One replacement** substitutes the references to one more parameter. -/
theorem safeReplaceAll_simultaneous {texts : List Text} {t script result : Text}
    (hocc : occ (36 :: MiniNumber.digitsText (texts.length + 1)) (simultaneous texts script)
      = (pieces script).count (reference (texts.length + 1)))
    (hformat : (pieces script).count (reference (texts.length + 1)) = 0 ∨ REPLACE.escapes t = false)
    (h : REPLACE.safeReplaceAll (simultaneous texts script)
      (36 :: MiniNumber.digitsText (texts.length + 1)) t = .ok result) :
    result = simultaneous (texts ++ [t]) script := by
  have hmark : (36 : Byte) ∉ MiniNumber.digitsText (texts.length + 1) := fun hmem =>
    absurd (MiniNumber.isDigit_of_mem_digitsText hmem) (by decide)
  refine REPLACE.safeReplaceAll_parts hmark (Piece.substitute texts) (Piece.substitute (texts ++ [t]))
    (· == reference (texts.length + 1)) (fun p hp => ?_) (fun p hp => ?_) (pieces script) ?_ hocc h
  · rw [beq_iff_eq.mp hp, substitute_reference, substitute_append, if_pos rfl]
    exact ⟨rfl, rfl⟩
  · rw [substitute_append, if_neg (fun heq => hp (beq_iff_eq.mpr heq))]
  · intro hany
    refine hformat.resolve_left fun hzero => ?_
    obtain ⟨p, hp, hmarked⟩ := List.any_eq_true.mp hany
    exact List.count_eq_zero.mp hzero (beq_iff_eq.mp hmarked ▸ hp)

end Substitution

/-! ## `FUNCTION` -/

namespace Library

variable (L : Library)

/-- The library with the replacement of the node. -/
def withReplace : Library := { L with safeReplaceAll := REPLACE.safeReplaceAll }

/-- The text that `FUNCTION` runs, from the texts of its parameters from number `i` on. -/
def functionText : List Text → (i : ℕ) → Text → Scripted Text
  | [], _, finalfunction => .ok finalfunction
  | t :: texts, i, finalfunction => do
    let finalfunction ← L.safeReplaceAll finalfunction (36 :: MiniNumber.digitsText i) t
    if tooManyReplacements finalfunction then
      .error (.execution "Too many replacements in FUNCTION, max 64")
    else functionText texts (i + 1) finalfunction

/-- What comes behind the text: it is run, and the value of `returnvalue` is read. -/
def runFunctionText (run : Text → Scripted Variables) (finalfunction : Text) : Scripted Value :=
  match run finalfunction with
  | .ok vars => returnValue vars
  | .error e => .error e.toExecution

/-- The loop over the parameters finds the text and runs it. -/
theorem evaluate_replaceParameters (run : Text → Scripted Variables) (values : List Value)
    (vars : Variables) (params : List Value) (i : ℕ) (hparams : values.drop i = params)
    (finalfunction : Text) :
    (L.replaceParameters params.length i finalfunction).evaluate run values vars
      = L.functionText (params.map parameterText) i finalfunction >>= runFunctionText run := by
  induction params generalizing i finalfunction with
  | nil =>
    show Routine.evaluate run values vars (.execute finalfunction (.answer returnValue)) = _
    rw [Routine.evaluate]
    show _ = runFunctionText run finalfunction
    unfold runFunctionText
    cases run finalfunction with
    | error e => rfl
    | ok vars => exact Routine.evaluate_answer ..
  | cons v params ih =>
    have hvalue : values[i]? = some v := by
      rw [← List.head?_drop, hparams, List.head?_cons]
    have hdrop : values.drop (i + 1) = params := by
      rw [← List.tail_drop, hparams, List.tail_cons]
    rw [List.map_cons, functionText, List.length_cons, replaceParameters,
      Routine.evaluate_ask _ _ _ hvalue]
    cases L.safeReplaceAll finalfunction (36 :: MiniNumber.digitsText i) (parameterText v) with
    | error e => exact Routine.evaluate_answer ..
    | ok finalfunction =>
      dsimp only
      show _ = (if tooManyReplacements finalfunction = true then _ else _) >>= _
      split_ifs with hmany
      · exact Routine.evaluate_throwExecution ..
      · exact ih (i + 1) hdrop finalfunction

/-- **The text that `FUNCTION` runs** is the substitution of all references, if the references are
literal. -/
theorem functionText_eq {texts : List Text} {script result : Text}
    (hliteral : Substitution.Literal texts script)
    (h : L.withReplace.functionText texts 1 script = .ok result) :
    result = Substitution.simultaneous texts script := by
  -- the parameters in front are put in, those behind are left
  have hloop : ∀ (left done : List Text), texts = done ++ left →
      L.withReplace.functionText left (done.length + 1) (Substitution.simultaneous done script)
        = .ok result →
      result = Substitution.simultaneous texts script := by
    intro left
    induction left with
    | nil =>
      intro done hsplit hrun
      rw [hsplit, List.append_nil]
      exact (Except.ok.inj hrun).symm
    | cons t left ih =>
      intro done hsplit hrun
      have hi : done.length < texts.length := by
        rw [hsplit, List.length_append, List.length_cons]
        omega
      have htake : texts.take done.length = done := by
        rw [hsplit, List.take_left]
      have ht : texts[done.length] = t := by
        simp only [hsplit, List.getElem_append_right (Nat.le_refl _), Nat.sub_self,
          List.getElem_cons_zero]
      obtain ⟨hocc, hformat⟩ := hliteral done.length hi
      rw [htake] at hocc
      rw [ht] at hformat
      rw [functionText] at hrun
      obtain ⟨finalfunction, hreplace, hrun⟩ := ExpressionParser.bind_eq_ok.mp hrun
      have hfinal := Substitution.safeReplaceAll_simultaneous hocc hformat hreplace
      by_cases hmany : tooManyReplacements finalfunction = true
      · rw [if_pos hmany] at hrun
        cases hrun
      · rw [if_neg hmany] at hrun
        refine ih (done ++ [t]) (by rw [hsplit, List.append_assoc]; rfl) ?_
        rw [List.length_append, List.length_singleton, ← hfinal]
        exact hrun
  refine hloop texts [] rfl ?_
  rw [Substitution.simultaneous_nil]
  exact h

end Library

/-! ## The value that comes back -/

namespace Value

/-- A value that a constructor has accepted. -/
def Accepted : Value → Prop
  | boolean _ => True
  | hex d => d.getLength ≤ maxDataSize
  | number x => x.Canonical
  | script text => text.length ≤ maxDataSize

/-- The value is a text, or a byte string without bytes: it does not read back from its text. -/
def Unspelled : Value → Bool
  | script _ => true
  | hex d => d.bytes.isEmpty
  | _ => false

theorem isNumeric_joinPoint {intpart frac : Text} (hne : intpart ≠ [])
    (hint : ∀ c ∈ intpart, MiniNumber.isDigit c = true)
    (hfrac : ∀ c ∈ frac, MiniNumber.isDigit c = true) :
    isNumeric (MiniNumber.joinPoint intpart frac) = true := by
  have hempty : intpart.isEmpty = false := by
    rw [List.isEmpty_eq_false_iff]
    exact hne
  cases frac with
  | nil =>
    have hjoin : MiniNumber.joinPoint intpart [] = intpart := rfl
    rw [hjoin, isNumeric, List.takeWhile_eq_self_iff.mpr hint, hempty,
      List.dropWhile_eq_nil_iff.mpr hint]
    rfl
  | cons f frac =>
    rw [MiniNumber.joinPoint, if_neg (by simp), isNumeric, List.takeWhile_append_of_pos hint,
      List.dropWhile_append_of_pos hint]
    have htake : (46 :: f :: frac : Text).takeWhile MiniNumber.isDigit = [] := rfl
    have hdrop : (46 :: f :: frac : Text).dropWhile MiniNumber.isDigit = 46 :: f :: frac := rfl
    have hall : (f :: frac).all MiniNumber.isDigit = true := List.all_eq_true.mpr hfrac
    rw [htake, List.append_nil, hempty, hdrop]
    dsimp only
    rw [hall]
    rfl

/-- The text of a number has a minus sign in front, or it is numeric. -/
theorem number_toText_numeric (x : MiniNumber) :
    (x.toText.head? == some 45 || isNumeric x.toText) = true := by
  by_cases hzero : x.unscaled = 0
  · rw [MiniNumber.toText, if_pos hzero]
    decide
  · obtain ⟨intpart, frac, htext, hne, hint, hfrac, -⟩ :=
      MiniNumber.plainText_eq_joinPoint x.unscaled.natAbs x.scale
    rw [MiniNumber.toText_of_ne hzero, htext]
    split_ifs
    · rfl
    · rw [isNumeric_joinPoint hne hint hfrac, Bool.or_true]

/-- **A number reads back** from its text. -/
theorem getValue_number {x : MiniNumber} (h : x.Canonical) :
    ∃ m, getValue x.toText = .ok (number m) ∧ m.toRat = x.toRat := by
  have hno : ∀ c : Byte, MiniNumber.isDigit c = false → c ≠ 46 → c ≠ 45 → c ∉ x.toText := by
    intro c h1 h2 h3 hmem
    rcases mem_number_toText hmem with hc | hc | hc
    · rw [h1] at hc
      cases hc
    · exact h2 hc
    · exact h3 hc
  have hbracket : isBracketed x.toText = false := by
    cases htext : x.toText with
    | nil => rfl
    | cons c cs =>
      have hc : c ≠ 91 := by
        rintro rfl
        exact hno 91 rfl (by decide) (by decide) (htext ▸ List.mem_cons_self)
      simp [isBracketed, hc]
  have hhex : ¬ (MiniNumber.ascii "0x").isPrefixOf x.toText = true := by
    intro hp
    obtain ⟨rest, hrest⟩ := List.isPrefixOf_iff_prefix.mp hp
    refine hno 120 rfl (by decide) (by decide) ?_
    rw [← hrest]
    exact List.mem_append_left _ (by decide)
  have hword : ∀ word : Text, (69 : Byte) ∈ word → x.toText ≠ word := by
    rintro word hmem rfl
    exact hno 69 rfl (by decide) (by decide) hmem
  obtain ⟨m, hm, -, hrat⟩ := MiniNumber.ofText_toText h
  refine ⟨m, ?_, hrat⟩
  rw [getValue, hbracket, if_neg Bool.false_ne_true, if_neg hhex, if_neg (hword _ (by decide)),
    if_neg (hword _ (by decide)), if_pos (number_toText_numeric x), hm]
  rfl

/-- **A byte string reads back** from its text, if it has bytes. -/
theorem getValue_hex {d : MiniData} (h : d.getLength ≤ maxDataSize) (hne : d.bytes ≠ []) :
    getValue d.to0xString = .ok (hex d) := by
  obtain hempty | ⟨rest, htext⟩ := hex_toText_cases d
  · obtain ⟨bytes⟩ := d
    cases bytes with
    | nil => exact absurd rfl hne
    | cons b bs => cases hempty
  · have hbracket : isBracketed d.to0xString = false := by
      rw [htext]
      rfl
    have hhex : (MiniNumber.ascii "0x").isPrefixOf d.to0xString = true := by
      rw [htext]
      rfl
    rw [getValue, hbracket, if_neg Bool.false_ne_true, if_pos hhex, MiniData.ofHex_to0xString]
    show hexValue d = _
    rw [hexValue, if_neg (Nat.not_lt.mpr h)]

/-- A text does not read back as itself. -/
theorem getValue_script_ne (text : Text) : getValue text ≠ .ok (script text) := by
  intro h
  unfold getValue at h
  split_ifs at h with hbracket
  · unfold stringValue at h
    split_ifs at h
    have htext : (text.drop 1).dropLast = text := script.inj (Except.ok.inj h)
    have hlength := congrArg List.length htext
    rw [List.length_dropLast, List.length_drop] at hlength
    simp only [isBracketed, Bool.and_eq_true, decide_eq_true_eq] at hbracket
    omega
  · cases hd : ofResult (MiniData.ofHex text) with
    | error e =>
      rw [hd] at h
      cases h
    | ok d =>
      rw [hd] at h
      have hhex : hexValue d = .ok (script text) := h
      unfold hexValue at hhex
      split_ifs at hhex
      cases hhex
  · cases h
  · cases h
  · cases hx : ofResult (MiniNumber.ofText text) with
    | error e =>
      rw [hx] at h
      cases h
    | ok x =>
      rw [hx] at h
      cases h

/-- **A value reads back** from its text exactly when it is no text and no empty byte string. -/
theorem getValue_toText_iff {ret : Value} (h : ret.Accepted) :
    (∃ v, getValue ret.toText = .ok v ∧ v.getValueType = ret.getValueType ∧
      BooleanExpression.isEqual v ret = true) ↔ ret.Unspelled = false := by
  cases ret with
  | boolean b =>
    refine iff_of_true ⟨.boolean b, ?_, rfl, beq_self_eq_true b⟩ rfl
    cases b <;> decide
  | hex d =>
    by_cases hempty : d.bytes = []
    · refine iff_of_false ?_ ?_
      · obtain ⟨bytes⟩ := d
        cases hempty
        rintro ⟨v, hv, -⟩
        cases hv
      · rw [Unspelled, hempty]
        decide
    · refine iff_of_true ⟨.hex d, getValue_hex h hempty, rfl, (MiniData.isEqual_iff d d).mpr rfl⟩ ?_
      rw [Unspelled, List.isEmpty_eq_false_iff]
      exact hempty
  | number x =>
    obtain ⟨m, hm, hrat⟩ := getValue_number h
    exact iff_of_true ⟨.number m, hm, rfl, (MiniNumber.isEqual_iff m x).mpr hrat⟩ rfl
  | script text =>
    refine iff_of_false ?_ nofun
    rintro ⟨v, hv, htype, hequal⟩
    cases v with
    | script s =>
      rw [show s = text from beq_iff_eq.mp hequal] at hv
      exact getValue_script_ne text hv
    | boolean | hex | number => cases htype

end Value

/-! ## What `FUNCTION` does -/

namespace Library

variable (L : Library)

/-- The text that `FUNCTION` runs, from its script and the values of its parameters. -/
def finalFunction (script : Text) (params : List Value) : Scripted Text :=
  if tooManyReplacements script then
    .error (.execution "Too many replacements in FUNCTION, max 64")
  else L.functionText (params.map parameterText) 1 script

/-- What `FUNCTION` makes of its script and the values of its parameters. -/
def evaluateFunction (run : Text → Scripted Variables) (vars : Variables) (script : Text)
    (params : List Value) : Scripted Value :=
  (L.function (params.length + 1)).evaluate run (.script script :: params) vars

/-- **`FUNCTION` runs one text** that does not depend on what the run does. -/
theorem evaluateFunction_eq (run : Text → Scripted Variables) (vars : Variables) (script : Text)
    (params : List Value) :
    L.evaluateFunction run vars script params
      = L.finalFunction script params >>= runFunctionText run := by
  have hstart : L.evaluateFunction run vars script params
      = Routine.evaluate run (.script script :: params) vars
        (.getStringParam 0 fun finalfunction =>
          if tooManyReplacements finalfunction then
            .throwExecution "Too many replacements in FUNCTION, max 64"
          else L.replaceParameters params.length 1 finalfunction : Routine false (params.length + 2)) :=
    rfl
  rw [hstart, Routine.evaluate_getStringParam _ _ _ rfl, finalFunction]
  split_ifs with hmany
  · exact Routine.evaluate_throwExecution ..
  · exact L.evaluate_replaceParameters run _ vars params 1 rfl script

/-- `FUNCTION` is a substitution: the text that it runs is the script with its references replaced at
once, and it has the value of `returnvalue`. -/
def Substitutes (run : Text → Scripted Variables) (vars : Variables) (script : Text)
    (params : List Value) : Prop :=
  ∀ t, L.finalFunction script params = .ok t →
    t = Substitution.simultaneous (params.map parameterText) script ∧
    ∀ vars' ret, run t = .ok vars' → vars' functionReturn = some ret →
      ∃ v, L.evaluateFunction run vars script params = .ok v ∧ v.getValueType = ret.getValueType ∧
        BooleanExpression.isEqual v ret = true

/-- Where `FUNCTION` has run its text, it has the value that reads back from the one of
`returnvalue`. -/
theorem evaluateFunction_of_run {run : Text → Scripted Variables} (vars : Variables) {script t : Text}
    {params : List Value} {vars' : Variables} {ret : Value} (ht : L.finalFunction script params = .ok t)
    (hrun : run t = .ok vars') (hret : vars' functionReturn = some ret) :
    L.evaluateFunction run vars script params = Value.getValue ret.toText := by
  rw [evaluateFunction_eq, ht]
  show runFunctionText run t = _
  rw [runFunctionText, hrun]
  show returnValue vars' = _
  rw [returnValue, hret]

/-- **`FUNCTION` with literal references is a substitution** exactly when its run leaves neither a text
nor an empty byte string in `returnvalue`. -/
theorem function_substitutes_iff (run : Text → Scripted Variables) (vars : Variables) (script : Text)
    (params : List Value) (hliteral : Substitution.Literal (params.map parameterText) script)
    (hrun : ∀ t vars' ret, run t = .ok vars' → vars' functionReturn = some ret → ret.Accepted) :
    L.withReplace.Substitutes run vars script params ↔
      ∀ t vars' ret, L.withReplace.finalFunction script params = .ok t → run t = .ok vars' →
        vars' functionReturn = some ret → ret.Unspelled = false := by
  constructor
  · intro h t vars' ret ht hvars hret
    obtain ⟨v, hv, htype, hequal⟩ := (h t ht).2 vars' ret hvars hret
    rw [evaluateFunction_of_run _ vars ht hvars hret] at hv
    exact (Value.getValue_toText_iff (hrun t vars' ret hvars hret)).mp ⟨v, hv, htype, hequal⟩
  · intro h t ht
    refine ⟨?_, fun vars' ret hvars hret => ?_⟩
    · have htext := ht
      unfold finalFunction at htext
      split_ifs at htext
      exact L.functionText_eq hliteral htext
    · rw [evaluateFunction_of_run _ vars ht hvars hret]
      exact (Value.getValue_toText_iff (hrun t vars' ret hvars hret)).mpr (h t vars' ret ht hvars hret)

/-- A run that leaves a number in `returnvalue`. -/
def sampleRun (_ : Text) : Scripted Variables :=
  .ok (Function.update (fun _ => none) functionReturn (some (.number ⟨5, 0⟩)))

theorem function_substitutes_sample :
    Contract.idleLibrary.withReplace.Substitutes sampleRun (fun _ => none) (MiniNumber.ascii "LET a = $2-$1")
      [.number ⟨7, 0⟩, .hex ⟨[0xAB]⟩] := by
  have hreturn : ∀ t vars' ret, sampleRun t = .ok vars' → vars' functionReturn = some ret →
      ret = .number ⟨5, 0⟩ := by
    intro t vars' ret hrun hret
    rw [← Except.ok.inj hrun, Function.update_self] at hret
    exact (Option.some.inj hret).symm
  refine (function_substitutes_iff Contract.idleLibrary sampleRun (fun _ => none)
    (MiniNumber.ascii "LET a = $2-$1") [.number ⟨7, 0⟩, .hex ⟨[0xAB]⟩] (by decide +kernel) ?_).mpr ?_
  · intro t vars' ret hrun hret
    rw [hreturn t vars' ret hrun hret]
    exact (by decide : MiniNumber.Canonical ⟨5, 0⟩)
  · intro t vars' ret _ hrun hret
    rw [hreturn t vars' ret hrun hret]
    rfl

/-- The parameters `1` to `10` and the script `$10`: the replacement of `$1` comes to the same text by
chance. -/
example : let params := (List.range 10).map fun k => Value.number ⟨k + 1, 0⟩
    ¬ Substitution.Literal (params.map parameterText) (MiniNumber.ascii "$10") ∧
      Contract.idleLibrary.withReplace.finalFunction (MiniNumber.ascii "$10") params
        = .ok (Substitution.simultaneous (params.map parameterText) (MiniNumber.ascii "$10")) := by
  decide +kernel

/-- **The formatter rewrites a value:** of two dollar signs one is left. -/
theorem function_dollar :
    ¬ Contract.idleLibrary.withReplace.Substitutes sampleRun (fun _ => none) (MiniNumber.ascii "$1")
      [.script (MiniNumber.ascii "$$")] := by
  intro h
  have hrun : Contract.idleLibrary.withReplace.finalFunction (MiniNumber.ascii "$1")
        [.script (MiniNumber.ascii "$$")] = .ok (MiniNumber.ascii "[$]") ∧
      MiniNumber.ascii "[$]" ≠ Substitution.simultaneous
        ([Value.script (MiniNumber.ascii "$$")].map parameterText) (MiniNumber.ascii "$1") := by
    decide +kernel
  exact hrun.2 (h _ hrun.1).1

end Library

end Minima.Kissvm
