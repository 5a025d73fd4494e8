import Minima.Base.NumberText
import Mathlib.Data.List.DropRight

/-! # `CommandRunner::splitStringJSON` and `splitterQuotedPattern`

A command line is cut into the command and its arguments `name:value`. The slow splitter goes over the
characters; the fast one puts spaces around the colons, takes the matches of a regular expression and puts
names and values together again.

* **`Piece`**, **`pieces`** — a line as both splitters see it: white space, colons, quoted texts, runs.
* **`findTokens_spaced`** — the matches are the pieces but for white space.
* **`run_pieces`** — the slow splitter takes piece by piece where no quote is in a run. -/

namespace Minima

namespace CommandRunner

open MiniNumber (ascii isSpace)

/-! ## The source -/

/-- `trim`. -/
def trim (s : Text) : Text := (s.dropWhile isSpace).rdropWhile isSpace

/-- The variables of the slow path. -/
structure Split where
  token : List Text
  current : Text
  jsoned : ℤ
  quoted : Bool
  deriving DecidableEq

/-- `current` becomes a token unless it is empty. -/
def Split.pushed (s : Split) : List Text :=
  if s.current = [] then s.token else s.token ++ [trim s.current]

/-- One turn of the loop of the slow path. -/
def turn (s : Split) (cc : Byte) : Split :=
  if cc = 32 then
    if s.quoted = false ∧ s.jsoned = 0 then { s with token := s.pushed, current := [] }
    else { s with current := s.current ++ [cc] }
  else if cc = 123 then { s with jsoned := s.jsoned + 1, current := s.current ++ [cc] }
  else if cc = 125 then { s with jsoned := s.jsoned - 1, current := s.current ++ [cc] }
  else if cc = 91 then { s with jsoned := s.jsoned + 1, current := s.current ++ [cc] }
  else if cc = 93 then { s with jsoned := s.jsoned - 1, current := s.current ++ [cc] }
  else if cc = 34 then
    if s.jsoned > 0 then { s with current := s.current ++ [cc] } else { s with quoted := !s.quoted }
  else { s with current := s.current ++ [cc] }

/-- The replacement of a colon. -/
def spaceColon (c : Byte) : Text := if c = 58 then ascii " : " else [c]

/-- The matches of the regular expression `"([^"]*)"|(\S+)`, one behind the other. -/
def findTokens : Text → List Text
  | [] => []
  | c :: cs =>
    if isSpace c then findTokens cs
    else if c = 34 ∧ 34 ∈ cs then
      (cs.takeWhile fun b => b ≠ 34) :: findTokens (cs.dropWhile fun b => b ≠ 34).tail
    else (c :: cs.takeWhile fun b => !isSpace b) :: findTokens (cs.dropWhile fun b => !isSpace b)
  termination_by s => s.length
  decreasing_by
    · simp
    · have hdrop := (List.dropWhile_suffix (l := cs) fun b => decide (b ≠ 34)).length_le
      simp only [List.length_tail, List.length_cons]
      omega
    · have hdrop := (List.dropWhile_suffix (l := cs) fun b => !isSpace b).length_le
      simp only [List.length_cons]
      omega

/-- The variables of the loop that builds the pairs. -/
structure Pairs where
  first : Bool
  namefound : Bool
  nvpair : Text
  finaltokens : List Text

/-- One turn of this loop; `none` is the empty list that leaves the line to the slow path. -/
def Pairs.turn (s : Pairs) (tok : Text) : Option Pairs :=
  if s.first then some { s with first := false, finaltokens := s.finaltokens ++ [tok] }
  else if s.namefound = false then
    if trim tok = ascii ":" then none else some { s with namefound := true, nvpair := tok }
  else if trim tok = ascii ":" then some { s with nvpair := s.nvpair ++ ascii ":" }
  else some { s with namefound := false, nvpair := s.nvpair ++ tok,
                     finaltokens := s.finaltokens ++ [s.nvpair ++ tok] }

/-- **`splitterQuotedPattern`**. -/
def splitterQuotedPattern (zInput : Text) : List Text :=
  ((findTokens ((trim zInput).flatMap spaceColon)).foldlM Pairs.turn ⟨true, false, [], []⟩).elim []
    Pairs.finaltokens

/-- The line takes the fast path: no `:\` and no opening brace or bracket. -/
def FastPath (zInput : Text) : Prop := ¬ ascii ":\\" <:+: zInput ∧ (123 : Byte) ∉ zInput ∧ (91 : Byte) ∉ zInput

instance (zInput : Text) : Decidable (FastPath zInput) := inferInstanceAs (Decidable (_ ∧ _ ∧ _))

/-- **`splitStringJSON`**. -/
def splitStringJSON (zForceNormal : Bool) (zInput : Text) : List Text :=
  if zForceNormal = false ∧ FastPath zInput ∧ splitterQuotedPattern zInput ≠ [] then splitterQuotedPattern zInput
  else ((trim zInput).foldl turn ⟨[], [], 0, false⟩).pushed

/-! ## Pieces -/

/-- A piece of a line: a character of white space, a colon, a text between two quotes, or a run of other
characters. -/
inductive Piece where
  | blank (b : Byte)
  | colon
  | quoted (q : Text)
  | run (w : Text)
  deriving DecidableEq

namespace Piece

/-- The piece in the line. -/
def written : Piece → Text
  | blank b => [b]
  | colon => [58]
  | quoted q => 34 :: (q ++ [34])
  | run w => w

/-- The piece without its quotes. -/
def text : Piece → Text
  | blank b => [b]
  | colon => [58]
  | quoted q => q
  | run w => w

/-- The match of the piece in the line with spaces around its colons. -/
def token : Piece → Option Text
  | blank _ => none
  | colon => some [58]
  | quoted q => some (q.flatMap spaceColon)
  | run w => some w

/-- A space outside quotes. -/
def isSeparator (p : Piece) : Bool := p = blank 32

end Piece

/-- **The pieces of a line**; a quote without another one behind it belongs to a run. -/
def pieces : Text → List Piece
  | [] => []
  | c :: cs =>
    if isSpace c then .blank c :: pieces cs
    else if c = 58 then .colon :: pieces cs
    else if c = 34 ∧ 34 ∈ cs then
      .quoted (cs.takeWhile fun b => b ≠ 34) :: pieces (cs.dropWhile fun b => b ≠ 34).tail
    else .run (c :: cs.takeWhile fun b => !isSpace b && b ≠ 58) ::
      pieces (cs.dropWhile fun b => !isSpace b && b ≠ 58)
  termination_by s => s.length
  decreasing_by
    · simp
    · simp
    · have hdrop := (List.dropWhile_suffix (l := cs) fun b => decide (b ≠ 34)).length_le
      simp only [List.length_tail, List.length_cons]
      omega
    · have hdrop := (List.dropWhile_suffix (l := cs) fun b => !isSpace b && decide (b ≠ 58)).length_le
      simp only [List.length_cons]
      omega

/-- What the pieces of a line are. -/
def Piece.WellFormed : Piece → Prop
  | .blank b => isSpace b = true
  | .colon => True
  | .quoted q => (34 : Byte) ∉ q
  | .run w => w ≠ [] ∧ ∀ c ∈ w, isSpace c = false ∧ c ≠ 58

/-- The text from a quote to the next one, and what is behind it. -/
theorem takeWhile_quote {cs : Text} (h : (34 : Byte) ∈ cs) :
    cs = (cs.takeWhile fun b => b ≠ 34) ++ 34 :: (cs.dropWhile fun b => b ≠ 34).tail ∧
      (34 : Byte) ∉ cs.takeWhile fun b => b ≠ 34 := by
  refine ⟨?_, fun hmem => by simpa using List.mem_takeWhile_imp hmem⟩
  have hdrop : ∃ rest, (cs.dropWhile fun b => b ≠ 34) = 34 :: rest := by
    cases hcases : cs.dropWhile fun b => b ≠ 34 with
    | nil =>
      have hall := List.dropWhile_eq_nil_iff.mp hcases 34 h
      simp at hall
    | cons d rest =>
      have hhead := List.head?_dropWhile_not (fun b => decide (b ≠ (34 : Byte))) cs
      rw [hcases] at hhead
      obtain rfl : d = 34 := by simpa using hhead
      exact ⟨rest, rfl⟩
  obtain ⟨rest, hrest⟩ := hdrop
  conv_lhs => rw [← List.takeWhile_append_dropWhile (p := fun b => decide (b ≠ (34 : Byte))) (l := cs)]
  rw [hrest, List.tail_cons]

theorem pieces_spec (s : Text) : (pieces s).flatMap Piece.written = s ∧ ∀ p ∈ pieces s, p.WellFormed := by
  induction s using pieces.induct with
  | case1 => simp [pieces]
  | case2 c cs hspace ih =>
    rw [pieces, if_pos hspace]
    exact ⟨by rw [List.flatMap_cons, ih.1]; rfl, List.forall_mem_cons.mpr ⟨hspace, ih.2⟩⟩
  | case3 cs hspace ih =>
    rw [pieces, if_neg hspace, if_pos rfl]
    exact ⟨by rw [List.flatMap_cons, ih.1]; rfl, List.forall_mem_cons.mpr ⟨trivial, ih.2⟩⟩
  | case4 c cs hspace hcolon hquote ih =>
    obtain ⟨hsplit, hnot⟩ := takeWhile_quote hquote.2
    rw [pieces, if_neg hspace, if_neg hcolon, if_pos hquote]
    refine ⟨?_, List.forall_mem_cons.mpr ⟨hnot, ih.2⟩⟩
    rw [List.flatMap_cons, ih.1, Piece.written, hquote.1]
    conv_rhs => rw [hsplit]
    simp
  | case5 c cs hspace hcolon hquote ih =>
    rw [pieces, if_neg hspace, if_neg hcolon, if_neg hquote]
    refine ⟨?_, List.forall_mem_cons.mpr ⟨⟨by simp, fun d hd => ?_⟩, ih.2⟩⟩
    · rw [List.flatMap_cons, ih.1, Piece.written, List.cons_append, List.takeWhile_append_dropWhile]
    · rcases List.mem_cons.mp hd with rfl | hd
      · exact ⟨by simpa using hspace, hcolon⟩
      · simpa using List.mem_takeWhile_imp hd

/-! ## The matches are the pieces -/

/-- Behind a colon with spaces a run ends, as in front of the colon. -/
theorem takeWhile_spaced (cs : Text) :
    ((cs.flatMap spaceColon).takeWhile fun b => !isSpace b) = (cs.takeWhile fun b => !isSpace b && b ≠ 58) ∧
      ((cs.flatMap spaceColon).dropWhile fun b => !isSpace b) =
        (cs.dropWhile fun b => !isSpace b && b ≠ 58).flatMap spaceColon := by
  induction cs with
  | nil => exact ⟨rfl, rfl⟩
  | cons c cs ih =>
    rw [List.flatMap_cons]
    by_cases hcolon : c = 58
    · subst hcolon
      exact ⟨rfl, rfl⟩
    · rw [spaceColon, if_neg hcolon, List.singleton_append]
      by_cases hspace : isSpace c = true
      · simp [hspace, hcolon, spaceColon]
      · simp only [List.takeWhile_cons, List.dropWhile_cons, hspace, hcolon, ne_eq, not_false_eq_true,
          decide_true, Bool.and_true, Bool.not_false, if_true]
        exact ⟨by rw [ih.1], ih.2⟩

theorem takeWhile_quote_spaced (cs : Text) :
    ((cs.flatMap spaceColon).takeWhile fun b => b ≠ 34) = (cs.takeWhile fun b => b ≠ 34).flatMap spaceColon ∧
      ((cs.flatMap spaceColon).dropWhile fun b => b ≠ 34).tail =
        (cs.dropWhile fun b => b ≠ 34).tail.flatMap spaceColon := by
  induction cs with
  | nil => exact ⟨rfl, rfl⟩
  | cons c cs ih =>
    rw [List.flatMap_cons]
    by_cases hcolon : c = 58
    · subst hcolon
      exact ⟨congrArg (ascii " : " ++ ·) ih.1, ih.2⟩
    · rw [spaceColon, if_neg hcolon, List.singleton_append]
      by_cases hquote : c = 34
      · subst hquote
        exact ⟨rfl, rfl⟩
      · simp only [List.takeWhile_cons, List.dropWhile_cons, hquote, ne_eq, not_false_eq_true, decide_true,
          if_true, List.flatMap_cons, spaceColon, if_neg hcolon, List.singleton_append]
        exact ⟨by rw [← ih.1], ih.2⟩

theorem findTokens_space {c : Byte} (h : isSpace c = true) (cs : Text) : findTokens (c :: cs) = findTokens cs := by
  rw [findTokens, if_pos h]

/-- **The matches are the pieces** of the line but for the white space. -/
theorem findTokens_spaced (s : Text) : findTokens (s.flatMap spaceColon) = (pieces s).filterMap Piece.token := by
  induction s using pieces.induct with
  | case1 => simp [pieces, findTokens]
  | case2 c cs hspace ih =>
    have hcolon : c ≠ 58 := by
      rintro rfl
      exact absurd hspace (by decide)
    rw [pieces, if_pos hspace, List.flatMap_cons, spaceColon, if_neg hcolon, List.singleton_append,
      findTokens_space hspace, ih]
    rfl
  | case3 cs hspace ih =>
    have hrun : findTokens (58 :: 32 :: cs.flatMap spaceColon) = [58] :: findTokens (cs.flatMap spaceColon) := by
      rw [findTokens, if_neg (by decide), if_neg (by simp)]
      exact congrArg ([58] :: ·) (findTokens_space (by decide) _)
    rw [pieces, if_neg hspace, if_pos rfl, List.flatMap_cons, spaceColon, if_pos rfl]
    exact (findTokens_space (by decide) _).trans (hrun.trans (by rw [ih]; rfl))
  | case4 c cs hspace hcolon hquote ih =>
    have hmem : c = 34 ∧ (34 : Byte) ∈ cs.flatMap spaceColon :=
      ⟨hquote.1, List.mem_flatMap.mpr ⟨34, hquote.2, by decide⟩⟩
    rw [pieces, if_neg hspace, if_neg hcolon, if_pos hquote, List.flatMap_cons, spaceColon, if_neg hcolon,
      List.singleton_append, findTokens, if_neg hspace, if_pos hmem, (takeWhile_quote_spaced cs).1,
      (takeWhile_quote_spaced cs).2, ih]
    rfl
  | case5 c cs hspace hcolon hquote ih =>
    have hmem : ¬ (c = 34 ∧ (34 : Byte) ∈ cs.flatMap spaceColon) := by
      rintro ⟨hc, hmem⟩
      obtain ⟨d, hd, h34⟩ := List.mem_flatMap.mp hmem
      rw [spaceColon] at h34
      split_ifs at h34
      · exact absurd h34 (by decide)
      · exact hquote ⟨hc, by rwa [List.mem_singleton.mp h34]⟩
    rw [pieces, if_neg hspace, if_neg hcolon, if_neg hquote, List.flatMap_cons, spaceColon, if_neg hcolon,
      List.singleton_append, findTokens, if_neg hspace, if_neg hmem, (takeWhile_spaced cs).1,
      (takeWhile_spaced cs).2, ih]
    rfl

/-! ## The slow path, piece by piece -/

/-- A closing brace or bracket. -/
def closes (c : Byte) : Bool := c = 125 ∨ c = 93

/-- What a character does that is no separator, opens no brace or bracket and, outside quotes, is no quote. -/
theorem turn_char {s : Split} {c : Byte} (hopen : c ≠ 123 ∧ c ≠ 91) (hquote : c ≠ 34)
    (hspace : c = 32 → s.quoted = true) :
    turn s c = { s with current := s.current ++ [c], jsoned := s.jsoned - if closes c then 1 else 0 } := by
  unfold turn closes
  by_cases h32 : c = 32
  · subst h32
    simp [hspace rfl]
  · rw [if_neg h32, if_neg hopen.1]
    by_cases h125 : c = 125
    · simp [h125]
    · rw [if_neg h125, if_neg hopen.2]
      by_cases h93 : c = 93
      · simp [h93]
      · simp [h93, h125, hquote]

theorem foldl_turn_chars {w : Text} (hopen : (123 : Byte) ∉ w ∧ (91 : Byte) ∉ w) (hquote : (34 : Byte) ∉ w)
    {s : Split} (hspace : (32 : Byte) ∈ w → s.quoted = true) :
    w.foldl turn s = { s with current := s.current ++ w, jsoned := s.jsoned - w.countP closes } := by
  induction w generalizing s with
  | nil => simp
  | cons c w ih =>
    simp only [List.mem_cons, not_or] at hopen hquote
    have hturn := turn_char (s := s) ⟨Ne.symm hopen.1.1, Ne.symm hopen.2.1⟩ (Ne.symm hquote.1)
      fun hc => hspace (by simp [hc])
    have hquoted : (turn s c).quoted = s.quoted := by rw [hturn]
    rw [List.foldl_cons, ih ⟨hopen.1.2, hopen.2.2⟩ hquote.2 fun hw =>
      hquoted.trans (hspace (List.mem_cons_of_mem _ hw)), hturn]
    simp only [List.append_assoc, List.singleton_append, List.countP_cons, Split.mk.injEq, true_and]
    push_cast
    refine ⟨?_, trivial⟩
    split_ifs <;> omega

/-- A piece that the slow path takes as it is: no opening brace or bracket, and no quote in a run. -/
def Piece.Plain (p : Piece) : Prop :=
  ((123 : Byte) ∉ p.text ∧ (91 : Byte) ∉ p.text) ∧ ∀ w, p = .run w → (34 : Byte) ∉ w

/-- A piece goes to the current token without its quotes. -/
theorem foldl_turn_piece {p : Piece} (hp : p.WellFormed) (hplain : p.Plain) (hseparator : p.isSeparator = false)
    {s : Split} (hquoted : s.quoted = false) (hjsoned : s.jsoned ≤ 0) :
    p.written.foldl turn s =
      { s with current := s.current ++ p.text, jsoned := s.jsoned - p.text.countP closes } := by
  cases p with
  | blank b =>
    have hb : b ≠ 32 := by
      rintro rfl
      exact absurd hseparator (by decide)
    have hquote : b ≠ 34 := by
      rintro rfl
      exact absurd (show isSpace 34 = true from hp) (by decide)
    exact foldl_turn_chars hplain.1 (by simpa [Piece.text] using Ne.symm hquote)
      (by simp [Piece.text, Ne.symm hb])
  | colon => exact foldl_turn_chars hplain.1 (by decide) fun h => absurd h (by decide)
  | quoted q =>
    have hflip : ∀ t : Split, t.jsoned ≤ 0 → turn t 34 = { t with quoted := !t.quoted } := by
      intro t ht
      simp [turn, not_lt.mpr ht]
    have hchars : q.foldl turn { s with quoted := true } = _ := foldl_turn_chars hplain.1 hp fun _ => rfl
    rw [Piece.written, List.foldl_cons, List.foldl_append, hflip s hjsoned, hquoted, Bool.not_false, hchars,
      List.foldl_cons, List.foldl_nil, hflip _ (by simp only [Piece.text]; omega)]
    simp [Piece.text]
  | run w =>
    refine foldl_turn_chars hplain.1 (hplain.2 w rfl) fun hmem => ?_
    exact absurd (hp.2 32 hmem).1 (by decide)

/-- The words of a line: what is between the spaces outside quotes. -/
def words (P : List Piece) : List (List Piece) := P.splitOnP Piece.isSeparator

/-- The text of a word. -/
def wordText (w : List Piece) : Text := w.flatMap Piece.text

/-- What the slow path makes of the texts of the words. -/
def trimmed (texts : List Text) : List Text := (texts.filter fun x => x ≠ []).map trim

/-- No space outside quotes is behind a closing brace or bracket. -/
def Closing (P : List Piece) : Prop := P.Pairwise fun p p' => p.text.countP closes = 0 ∨ p'.isSeparator = false

/-- **The slow path takes the words** of a line without an opening brace or bracket, a quote in a run and a
space behind a closing brace or bracket. -/
theorem run_pieces {P : List Piece} (hwell : ∀ p ∈ P, p.WellFormed) (hplain : ∀ p ∈ P, p.Plain)
    (hclosing : Closing P) {s : Split} (hquoted : s.quoted = false) (hjsoned : s.jsoned ≤ 0)
    (hspace : s.jsoned = 0 ∨ ∀ p ∈ P, p.isSeparator = false) :
    ((P.flatMap Piece.written).foldl turn s).pushed =
      s.token ++ trimmed (((words P).map wordText).modifyHead (s.current ++ ·)) := by
  induction P generalizing s with
  | nil =>
    by_cases hcurrent : s.current = [] <;> simp [words, wordText, trimmed, Split.pushed, hcurrent]
  | cons p P ih =>
    rw [Closing, List.pairwise_cons] at hclosing
    rw [List.forall_mem_cons] at hwell hplain
    rw [List.flatMap_cons, List.foldl_append, words, List.splitOnP_cons_eq_if_modifyHead]
    cases hp : p.isSeparator with
    | true =>
      obtain rfl : p = .blank 32 := by simpa [Piece.isSeparator] using hp
      have hzero : s.jsoned = 0 := hspace.resolve_right fun h => by
        exact absurd (h _ (List.mem_cons_self ..)) (by decide)
      have hturn : (Piece.blank 32).written.foldl turn s = { s with token := s.pushed, current := [] } := by
        simp [Piece.written, turn, hquoted, hzero]
      have hhead : trimmed (s.current :: (words P).map wordText) =
          (if s.current = [] then [] else [trim s.current]) ++ trimmed ((words P).map wordText) := by
        unfold trimmed
        by_cases hcurrent : s.current = [] <;> simp [hcurrent]
      have hpushed : s.pushed = s.token ++ if s.current = [] then [] else [trim s.current] := by
        unfold Split.pushed
        split_ifs
        · rw [List.append_nil]
        · rfl
      have hnil : ∀ texts : List Text, texts.modifyHead (([] : Text) ++ ·) = texts := fun texts => by
        cases texts <;> rfl
      have hnext := @ih hwell.2 hplain.2 hclosing.2 { s with token := s.pushed, current := [] } hquoted hjsoned
        (.inl hzero)
      rw [hturn, hnext, if_pos rfl, List.map_cons,
        List.modifyHead_cons, wordText, List.flatMap_nil, List.append_nil, ← words, hhead, hpushed,
        List.append_assoc, hnil]
    | false =>
      have hrest : s.jsoned - p.text.countP closes = 0 ∨ ∀ p' ∈ P, p'.isSeparator = false := by
        rcases hspace with hzero | hnone
        · by_cases hcloses : p.text.countP closes = 0
          · exact .inl (by rw [hzero, hcloses]; rfl)
          · exact .inr fun p' hp' => (hclosing.1 p' hp').resolve_left hcloses
        · exact .inr fun p' hp' => hnone p' (List.mem_cons_of_mem _ hp')
      obtain ⟨w, ws, hwords⟩ := List.exists_cons_of_ne_nil (List.splitOnP_ne_nil Piece.isSeparator P)
      have hnext := @ih hwell.2 hplain.2 hclosing.2
        { s with current := s.current ++ p.text, jsoned := s.jsoned - p.text.countP closes } hquoted
        (by simp only; omega) hrest
      rw [foldl_turn_piece hwell.1 hplain.1 hp hquoted hjsoned, hnext, words, hwords]
      simp [wordText, List.append_assoc]

end CommandRunner

end Minima
