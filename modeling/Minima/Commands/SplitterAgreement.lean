import Minima.Commands.CommandRunner

/-! # Where the two splitters agree

* **`Agreeing`** — the first word is one part, and every other word a name, colons and a value.
* **`splitterQuotedPattern_eq`** — on such a line the fast splitter gives what the slow one gives; and only on
  such a line, unless one of its pieces is blank.
* **`splitterQuotedPattern_ne`** — a word that is no pair, and a colon between quotes. -/

namespace Minima

namespace CommandRunner

open MiniNumber (ascii isSpace)

/-! ## Trimming -/

/-- A text that trimming leaves as it is, and that is not empty. -/
def Trimmed (x : Text) : Prop := x ≠ [] ∧ trim x = x

instance (x : Text) : Decidable (Trimmed x) := inferInstanceAs (Decidable (_ ∧ _))

theorem mem_of_mem_trim {x : Text} {c : Byte} (h : c ∈ trim x) : c ∈ x :=
  (List.dropWhile_suffix isSpace).subset ((List.rdropWhile_prefix isSpace _).subset h)

theorem mem_trim_of_not_space {x : Text} {c : Byte} (h : c ∈ x) (hspace : isSpace c = false) : c ∈ trim x := by
  have hdrop : c ∈ x.dropWhile isSpace := by
    rw [← List.takeWhile_append_dropWhile (p := isSpace) (l := x)] at h
    exact (List.mem_append.mp h).resolve_left fun hmem => by simpa [hspace] using List.mem_takeWhile_imp hmem
  rw [← @List.rdropWhile_append_rtakeWhile _ isSpace (x.dropWhile isSpace)] at hdrop
  exact (List.mem_append.mp hdrop).resolve_right fun hmem => by simpa [hspace] using List.mem_rtakeWhile_imp hmem

theorem length_trim_le (x : Text) : (trim x).length ≤ x.length :=
  ((List.rdropWhile_prefix isSpace _).length_le).trans (List.dropWhile_suffix isSpace).length_le

theorem trim_eq_of_length {x : Text} (h : (trim x).length = x.length) : trim x = x := by
  have hle := (List.dropWhile_suffix (l := x) isSpace).length_le
  have hle' := (List.rdropWhile_prefix isSpace (x.dropWhile isSpace)).length_le
  have hdrop : x.dropWhile isSpace = x :=
    (List.dropWhile_suffix isSpace).eq_of_length (by unfold trim at h; omega)
  have htrim := (List.rdropWhile_prefix isSpace (x.dropWhile isSpace)).eq_of_length (by unfold trim at h; omega)
  rw [trim, htrim, hdrop]

/-- White space around a trimmed text is trimmed away. -/
theorem trim_padded {l x r : Text} (hl : ∀ c ∈ l, isSpace c = true) (hr : ∀ c ∈ r, isSpace c = true)
    (hx : Trimmed x) : trim (l ++ x ++ r) = x := by
  obtain ⟨hne, htrim⟩ := hx
  have hdrop : x.dropWhile isSpace = x := by
    have hle := (List.dropWhile_suffix (l := x) isSpace).length_le
    have hle' := (List.rdropWhile_prefix isSpace (x.dropWhile isSpace)).length_le
    refine (List.dropWhile_suffix isSpace).eq_of_length (le_antisymm hle ?_)
    calc x.length = (trim x).length := by rw [htrim]
      _ ≤ (x.dropWhile isSpace).length := hle'
  have hrdrop : x.rdropWhile isSpace = x := by rwa [trim, hdrop] at htrim
  obtain ⟨c, x', rfl⟩ := List.exists_cons_of_ne_nil hne
  have hc : ¬ isSpace c = true := by
    intro hc
    have hlt := (List.dropWhile_suffix (l := x') isSpace).length_le
    rw [List.dropWhile_cons_of_pos hc] at hdrop
    rw [hdrop, List.length_cons] at hlt
    omega
  rw [trim, List.append_assoc, List.dropWhile_append, List.dropWhile_eq_nil_iff.mpr hl, List.isEmpty_nil,
    if_pos rfl, List.cons_append, List.dropWhile_cons_of_neg hc, ← List.cons_append]
  rw [List.rdropWhile, List.reverse_append, List.dropWhile_append,
    List.dropWhile_eq_nil_iff.mpr fun d hd => hr d (List.mem_reverse.mp hd), List.isEmpty_nil, if_pos rfl]
  exact hrdrop

/-! ## Words and their parts -/

/-- The words of a line that are not empty. -/
def fullWords (P : List Piece) : List (List Piece) := (words P).filter fun w => w ≠ []

/-- The words are the line without its separators. -/
theorem flatten_fullWords (P : List Piece) : (fullWords P).flatten = P.filter fun p => !p.isSeparator := by
  have hwords : (words P).flatten = P.filter fun p => !p.isSeparator := by
    unfold words
    induction P with
    | nil => rfl
    | cons p P ih =>
      rw [List.splitOnP_cons_eq_if_modifyHead]
      split_ifs with hp
      · rw [List.flatten_cons, List.nil_append, ih, List.filter_cons_of_neg (by simp [hp])]
      · obtain ⟨w, ws, hwords⟩ := List.exists_cons_of_ne_nil (List.splitOnP_ne_nil Piece.isSeparator P)
        rw [List.filter_cons_of_pos (by simp [hp]), ← ih, hwords, List.modifyHead_cons, List.flatten_cons,
          List.flatten_cons, List.cons_append]
  rw [← hwords, fullWords, List.flatten_filter_ne_nil]

/-- The pieces of a word are pieces of the line and no separators. -/
theorem of_mem_fullWords {P w : List Piece} {p : Piece} (hw : w ∈ fullWords P) (hp : p ∈ w) :
    p ∈ P ∧ p.isSeparator = false := by
  have hmem : p ∈ (fullWords P).flatten := List.mem_flatten.mpr ⟨w, hw, hp⟩
  rw [flatten_fullWords] at hmem
  simpa using hmem

/-- A part of a word: a quoted text without a colon, or a run without a quote. -/
def Piece.IsPart : Piece → Prop
  | .blank _ => False
  | .colon => False
  | .quoted q => (58 : Byte) ∉ q
  | .run w => (34 : Byte) ∉ w

/-- A name, colons and a value. -/
def argument (name : Piece) (colons : ℕ) (value : Piece) : List Piece :=
  name :: (List.replicate colons .colon ++ [value])

/-- A word with white space around it. -/
def Padded (w core : List Piece) : Prop := ∃ l r, w = l ++ core ++ r ∧ ∀ p ∈ l ++ r, p.token = none

/-- **A line on which the splitters agree:** its first word is one part or a colon, every other word a name,
colons and a value, without white space at their ends, and no space outside quotes is behind a closing brace or bracket. -/
structure Agreeing (P : List Piece) : Prop where
  closing : Closing P
  shape : ∃ first args, fullWords P = first :: args ∧
    (∃ part : Piece, (part.IsPart ∨ part = .colon) ∧ Trimmed part.text ∧ Padded first [part]) ∧
    ∀ w ∈ args, ∃ (name : Piece) (colons : ℕ) (value : Piece), name.IsPart ∧ value.IsPart ∧
      Trimmed (wordText (argument name colons value)) ∧ Padded w (argument name colons value)

/-- A part is matched as it is, and has no colon. -/
theorem Piece.IsPart.token_eq {p : Piece} (h : p.IsPart) (hp : p.WellFormed) :
    p.token = some p.text ∧ (58 : Byte) ∉ p.text := by
  cases p with
  | blank b => exact absurd h id
  | colon => exact absurd h id
  | quoted q =>
    refine ⟨congrArg some ?_, h⟩
    have hspace : ∀ c ∈ q, spaceColon c = [c] := by
      intro c hc
      rw [spaceColon, if_neg]
      rintro rfl
      exact h hc
    calc q.flatMap spaceColon = q.flatMap fun c => [c] := List.flatMap_congr hspace
      _ = q := List.flatMap_singleton' q
  | run w => exact ⟨rfl, fun hmem => (hp.2 58 hmem).2 rfl⟩

/-! ## Lines of pairs -/

theorem trim_ne_colon {x : Text} (h : (58 : Byte) ∉ x) : trim x ≠ ascii ":" := by
  intro hcolon
  refine h (mem_of_mem_trim ?_)
  rw [hcolon]
  decide

/-- The loop puts a name, its colons and a value together again. -/
theorem foldlM_argument {name value : Text} (hname : (58 : Byte) ∉ name) (hvalue : (58 : Byte) ∉ value)
    (colons : ℕ) (nvpair : Text) (finaltokens : List Text) :
    (name :: (List.replicate colons [58] ++ [value])).foldlM Pairs.turn ⟨false, false, nvpair, finaltokens⟩ =
      some ⟨false, false, name ++ List.replicate colons 58 ++ value,
        finaltokens ++ [name ++ List.replicate colons 58 ++ value]⟩ := by
  have hcolons : ∀ (k : ℕ) (nv : Text),
      (List.replicate k ([58] : Text) ++ [value]).foldlM Pairs.turn ⟨false, true, nv, finaltokens⟩ =
        some ⟨false, false, nv ++ List.replicate k 58 ++ value,
          finaltokens ++ [nv ++ List.replicate k 58 ++ value]⟩ := by
    intro k
    induction k with
    | zero =>
      intro nv
      simp [Pairs.turn, trim_ne_colon hvalue]
    | succ k ih =>
      intro nv
      have hturn : Pairs.turn ⟨false, true, nv, finaltokens⟩ [58] = some ⟨false, true, nv ++ [58], finaltokens⟩ := rfl
      rw [List.replicate_succ, List.cons_append, List.foldlM_cons, hturn]
      refine (ih (nv ++ [58])).trans ?_
      simp [List.replicate_succ]
  have hturn : Pairs.turn ⟨false, false, nvpair, finaltokens⟩ name = some ⟨false, true, name, finaltokens⟩ := by
    simp [Pairs.turn, trim_ne_colon hname]
  rw [List.foldlM_cons, hturn]
  exact hcolons colons name

theorem wordText_argument (name : Piece) (colons : ℕ) (value : Piece) :
    wordText (argument name colons value) = name.text ++ List.replicate colons 58 ++ value.text := by
  have hcolons : (List.replicate colons Piece.colon).flatMap Piece.text = List.replicate colons 58 := by
    induction colons with
    | zero => rfl
    | succ k ih => rw [List.replicate_succ, List.flatMap_cons, ih]; rfl
  simp [argument, wordText, hcolons]

/-- White space is not matched. -/
theorem filterMap_token_padded {w core : List Piece} (h : Padded w core) :
    w.filterMap Piece.token = core.filterMap Piece.token := by
  obtain ⟨l, r, rfl, hblank⟩ := h
  have hl : l.filterMap Piece.token = [] :=
    List.filterMap_eq_nil_iff.mpr fun p hp => hblank p (List.mem_append_left _ hp)
  have hr : r.filterMap Piece.token = [] :=
    List.filterMap_eq_nil_iff.mpr fun p hp => hblank p (List.mem_append_right _ hp)
  rw [List.filterMap_append, List.filterMap_append, hl, hr, List.nil_append, List.append_nil]

/-- White space around a word is trimmed. -/
theorem trim_wordText_padded {w core : List Piece} (hwell : ∀ p ∈ w, p.WellFormed) (h : Padded w core)
    (hcore : Trimmed (wordText core)) : trim (wordText w) = wordText core := by
  obtain ⟨l, r, rfl, hblank⟩ := h
  have hspace : ∀ side : List Piece, (∀ p ∈ side, p.WellFormed ∧ p.token = none) →
      ∀ c ∈ wordText side, isSpace c = true := by
    intro side hside c hc
    obtain ⟨p, hp, hcp⟩ := List.mem_flatMap.mp hc
    obtain ⟨hpwell, hptoken⟩ := hside p hp
    cases p with
    | blank b => rwa [List.mem_singleton.mp hcp]
    | colon => cases hptoken
    | quoted q => cases hptoken
    | run w => cases hptoken
  have hsplit : wordText (l ++ core ++ r) = wordText l ++ wordText core ++ wordText r := by
    simp [wordText]
  rw [hsplit]
  exact trim_padded (hspace l fun p hp => ⟨hwell p (by simp [hp]), hblank p (List.mem_append_left _ hp)⟩)
    (hspace r fun p hp => ⟨hwell p (by simp [hp]), hblank p (List.mem_append_right _ hp)⟩) hcore

/-- The loop over words that are pairs. -/
theorem foldlM_args {args : List (List Piece)} (hwell : ∀ w ∈ args, ∀ p ∈ w, p.WellFormed)
    (hargs : ∀ w ∈ args, ∃ (name : Piece) (colons : ℕ) (value : Piece), name.IsPart ∧ value.IsPart ∧
      Trimmed (wordText (argument name colons value)) ∧ Padded w (argument name colons value))
    (nvpair : Text) (finaltokens : List Text) :
    ∃ nvpair', (args.flatMap fun w => w.filterMap Piece.token).foldlM Pairs.turn
        ⟨false, false, nvpair, finaltokens⟩ =
      some ⟨false, false, nvpair', finaltokens ++ args.map fun w => trim (wordText w)⟩ := by
  induction args generalizing nvpair finaltokens with
  | nil => exact ⟨nvpair, by simp⟩
  | cons w args ih =>
    obtain ⟨name, colons, value, hname, hvalue, htrimmed, hpadded⟩ := hargs w (by simp)
    have hmem : ∀ p ∈ argument name colons value, p ∈ w := by
      obtain ⟨l, r, rfl, -⟩ := hpadded
      intro p hp
      simp [hp]
    obtain ⟨htname, hcname⟩ := hname.token_eq (hwell w (by simp) name (hmem name (by simp [argument])))
    obtain ⟨htvalue, hcvalue⟩ := hvalue.token_eq (hwell w (by simp) value (hmem value (by simp [argument])))
    have htokens : w.filterMap Piece.token = name.text :: (List.replicate colons [58] ++ [value.text]) := by
      rw [filterMap_token_padded hpadded, argument, List.filterMap_cons_some htname, List.filterMap_append,
        List.filterMap_replicate_of_some (show Piece.colon.token = some [58] from rfl),
        List.filterMap_cons_some htvalue, List.filterMap_nil]
    have htext : trim (wordText w) = name.text ++ List.replicate colons 58 ++ value.text := by
      rw [trim_wordText_padded (hwell w (by simp)) hpadded htrimmed, wordText_argument]
    obtain ⟨nvpair', hrun⟩ := ih (fun w hw => hwell w (List.mem_cons_of_mem _ hw))
      (fun w hw => hargs w (List.mem_cons_of_mem _ hw)) (name.text ++ List.replicate colons 58 ++ value.text)
      (finaltokens ++ [name.text ++ List.replicate colons 58 ++ value.text])
    refine ⟨nvpair', ?_⟩
    rw [List.flatMap_cons, List.foldlM_append, htokens, foldlM_argument hcname hcvalue]
    refine hrun.trans ?_
    rw [List.map_cons, htext, List.append_assoc, List.singleton_append]

/-- The pieces that are matched, word by word. -/
theorem filterMap_token_words (P : List Piece) :
    P.filterMap Piece.token = (fullWords P).flatten.filterMap Piece.token := by
  rw [flatten_fullWords]
  induction P with
  | nil => rfl
  | cons p P ih =>
    cases hp : p.isSeparator with
    | true =>
      obtain rfl : p = .blank 32 := by simpa [Piece.isSeparator] using hp
      rw [List.filter_cons_of_neg (by simp [hp]), ← ih]
      rfl
    | false => rw [List.filter_cons_of_pos (by simp [hp]), List.filterMap_cons, List.filterMap_cons, ih]

/-- No character of a line on the fast path opens a brace or a bracket. -/
theorem FastPath.notMem_text {zInput : Text} (h : FastPath zInput) {p : Piece} (hp : p ∈ pieces (trim zInput)) :
    (123 : Byte) ∉ p.text ∧ (91 : Byte) ∉ p.text := by
  have hsub : ∀ c ∈ p.text, c ∈ zInput := by
    intro c hc
    refine mem_of_mem_trim ?_
    rw [← (pieces_spec (trim zInput)).1]
    refine List.mem_flatMap.mpr ⟨p, hp, ?_⟩
    cases p with
    | blank b => exact hc
    | colon => exact hc
    | quoted q => exact List.mem_cons_of_mem _ (List.mem_append_left _ hc)
    | run w => exact hc
  exact ⟨fun hmem => h.2.1 (hsub _ hmem), fun hmem => h.2.2 (hsub _ hmem)⟩

/-- **The slow splitter** on the fast path gives the trimmed words, if no quote is in a run. -/
theorem splitStringJSON_words {zInput : Text} (hfast : FastPath zInput)
    (hruns : ∀ w, Piece.run w ∈ pieces (trim zInput) → (34 : Byte) ∉ w) (hclosing : Closing (pieces (trim zInput))) :
    splitStringJSON true zInput = trimmed ((words (pieces (trim zInput))).map wordText) := by
  have hslow := run_pieces (s := ⟨[], [], 0, false⟩) (pieces_spec (trim zInput)).2
    (fun p hp => ⟨hfast.notMem_text hp, fun w hw => hruns w (hw ▸ hp)⟩) hclosing rfl le_rfl (.inl rfl)
  have hnil : ∀ texts : List Text, texts.modifyHead (([] : Text) ++ ·) = texts := fun texts => by
    cases texts <;> rfl
  rw [(pieces_spec (trim zInput)).1, List.nil_append, hnil] at hslow
  rw [splitStringJSON, if_neg (by simp), hslow]

/-- The trimmed words are those that are not empty, if these have a text. -/
theorem trimmed_words {P : List Piece} (h : ∀ w ∈ fullWords P, wordText w ≠ []) :
    trimmed ((words P).map wordText) = (fullWords P).map fun w => trim (wordText w) := by
  unfold fullWords trimmed at *
  generalize words P = W at h ⊢
  induction W with
  | nil => rfl
  | cons w W ih =>
    cases w with
    | nil => simpa [wordText] using ih (by simpa using h)
    | cons p w =>
      have htext : wordText (p :: w) ≠ [] := h (p :: w) (by simp)
      have hrest := ih fun w' hw' => h w' (by simpa using .inr (by simpa using hw'))
      rw [List.map_cons, List.filter_cons_of_pos (by simpa using htext), List.filter_cons_of_pos (by simp),
        List.map_cons, List.map_cons, hrest]

/-- **Where the line is made of pairs**, the fast splitter gives what the slow one gives. -/
theorem eq_of_agreeing {zInput : Text} (hfast : FastPath zInput) (h : Agreeing (pieces (trim zInput))) :
    splitterQuotedPattern zInput = splitStringJSON true zInput := by
  obtain ⟨first, args, hwords, ⟨part, hpart, htrimmed, hpadded⟩, hargs⟩ := h.shape
  have hwell : ∀ w ∈ first :: args, ∀ p ∈ w, p.WellFormed := by
    intro w hw p hp
    rw [← hwords] at hw
    exact (pieces_spec (trim zInput)).2 p (of_mem_fullWords hw hp).1
  have hfirst := List.forall_mem_cons.mp hwell
  have hpart_mem : part ∈ first := by
    obtain ⟨l, r, rfl, -⟩ := hpadded
    simp
  have htoken : part.token = some part.text := by
    rcases hpart with hpart | rfl
    · exact (hpart.token_eq (hfirst.1 part hpart_mem)).1
    · rfl
  -- the fast splitter: the first match, and then a pair for each word
  have hmatches : findTokens ((trim zInput).flatMap spaceColon) =
      part.text :: args.flatMap fun w => w.filterMap Piece.token := by
    rw [findTokens_spaced, filterMap_token_words, hwords, List.filterMap_flatten, List.map_cons, List.flatten_cons,
      filterMap_token_padded hpadded, List.filterMap_cons_some htoken]
    rfl
  obtain ⟨nvpair, hrun⟩ := foldlM_args hfirst.2 hargs [] [part.text]
  have hfast_eq : splitterQuotedPattern zInput = part.text :: args.map fun w => trim (wordText w) := by
    have hturn : Pairs.turn ⟨true, false, [], []⟩ part.text = some ⟨false, false, [], [part.text]⟩ := rfl
    rw [splitterQuotedPattern, hmatches, List.foldlM_cons, hturn, Option.bind_eq_bind, Option.bind_some, hrun]
    rfl
  -- the slow one: no quote is in a run, and no word is empty
  have hruns : ∀ w, Piece.run w ∈ pieces (trim zInput) → (34 : Byte) ∉ w := by
    intro w hw
    have hfull : Piece.run w ∈ (fullWords (pieces (trim zInput))).flatten := by
      rw [flatten_fullWords]
      simpa [Piece.isSeparator] using hw
    obtain ⟨word, hword, hmem⟩ := List.mem_flatten.mp hfull
    rw [hwords] at hword
    have hcore : ∀ core : List Piece, Padded word core → Piece.run w ∈ core := by
      rintro core ⟨l, r, rfl, hblank⟩
      rcases List.mem_append.mp hmem with hmem | hmem
      · rcases List.mem_append.mp hmem with hmem | hmem
        · exact absurd (hblank _ (List.mem_append_left _ hmem)) (by simp [Piece.token])
        · exact hmem
      · exact absurd (hblank _ (List.mem_append_right _ hmem)) (by simp [Piece.token])
    rcases List.mem_cons.mp hword with rfl | hword
    · obtain rfl := List.mem_singleton.mp (hcore _ hpadded)
      exact hpart.resolve_right (by simp)
    · obtain ⟨name, colons, value, hname, hvalue, -, hpad⟩ := hargs word hword
      have hmem' := hcore _ hpad
      simp only [argument, List.mem_cons, List.mem_append, List.mem_replicate, reduceCtorEq, and_false,
        List.not_mem_nil, or_false, false_or] at hmem'
      rcases hmem' with rfl | rfl
      · exact hname
      · exact hvalue
  have htrim_first : trim (wordText first) = part.text := by
    have htext : wordText [part] = part.text := by simp [wordText]
    rw [trim_wordText_padded hfirst.1 hpadded (by rwa [htext]), htext]
  have htext : ∀ w ∈ fullWords (pieces (trim zInput)), wordText w ≠ [] := by
    intro w hw hnil
    have htrim_nil : trim (wordText w) = [] := by rw [hnil]; rfl
    rw [hwords] at hw
    rcases List.mem_cons.mp hw with rfl | hw
    · exact htrimmed.1 (htrim_first.symm.trans htrim_nil)
    · obtain ⟨name, colons, value, -, -, htrim, hpad⟩ := hargs w hw
      rw [trim_wordText_padded (hfirst.2 w hw) hpad htrim] at htrim_nil
      exact htrim.1 htrim_nil
  rw [hfast_eq, splitStringJSON_words hfast hruns h.closing, trimmed_words htext, hwords, List.map_cons,
    htrim_first]

/-! ## Weights -/

/-- Two cuts of one list into groups are the same if the groups weigh the same, and every item has a weight. -/
theorem eq_of_flatten_of_weight {α : Type*} (weight : α → ℕ) {W G : List (List α)}
    (hpos : ∀ x ∈ W.flatten, 0 < weight x) (hflatten : W.flatten = G.flatten)
    (hweight : (W.map fun w => (w.map weight).sum) = G.map fun g => (g.map weight).sum) : W = G := by
  induction W generalizing G with
  | nil =>
    have hlength := congrArg List.length hweight
    rw [List.length_map, List.length_map, List.length_nil] at hlength
    exact (List.eq_nil_of_length_eq_zero hlength.symm).symm
  | cons w W ih =>
    cases G with
    | nil => simp at hweight
    | cons g G =>
      rw [List.map_cons, List.map_cons, List.cons.injEq] at hweight
      rw [List.flatten_cons, List.flatten_cons] at hflatten
      have hzero : ∀ a : List α, (∀ x ∈ a, 0 < weight x) → (a.map weight).sum = 0 → a = [] := by
        intro a ha hsum
        cases a with
        | nil => rfl
        | cons x a =>
          have hx := ha x (by simp)
          rw [List.map_cons, List.sum_cons] at hsum
          omega
      have hwg : w = g := by
        rcases List.append_eq_append_iff.mp hflatten with ⟨a, rfl, hrest⟩ | ⟨a, rfl, hrest⟩
        · have ha := hzero a (fun x hx => hpos x (by rw [List.flatten_cons, hrest]; simp [hx]))
            (by have hsum := hweight.1; rw [List.map_append, List.sum_append] at hsum; omega)
          rw [ha, List.append_nil]
        · have ha := hzero a (fun x hx => hpos x (by simp [hx]))
            (by have hsum := hweight.1; rw [List.map_append, List.sum_append] at hsum; omega)
          rw [ha, List.append_nil]
      subst hwg
      rw [ih (fun x hx => hpos x (by rw [List.flatten_cons]; exact List.mem_append_right _ hx))
        (List.append_cancel_left hflatten) hweight.2]

/-- The characters of a text but for white space and quotes. -/
def weight (x : Text) : ℕ := x.countP fun c => !isSpace c && c ≠ 34

theorem weight_append (x y : Text) : weight (x ++ y) = weight x + weight y := List.countP_append

theorem weight_of_space {x : Text} (h : ∀ c ∈ x, isSpace c = true) : weight x = 0 :=
  List.countP_eq_zero.mpr fun c hc => by simp [h c hc]

theorem weight_trim (x : Text) : weight (trim x) = weight x := by
  have hdrop : weight (x.dropWhile isSpace) = weight x := by
    conv_rhs => rw [← List.takeWhile_append_dropWhile (p := isSpace) (l := x)]
    rw [weight_append, weight_of_space fun c hc => List.mem_takeWhile_imp hc, Nat.zero_add]
  have hrdrop : weight ((x.dropWhile isSpace).rdropWhile isSpace) = weight (x.dropWhile isSpace) := by
    conv_rhs => rw [← @List.rdropWhile_append_rtakeWhile _ isSpace (x.dropWhile isSpace)]
    rw [weight_append, weight_of_space fun c hc => List.mem_rtakeWhile_imp hc, Nat.add_zero]
  rw [trim, hrdrop, hdrop]

theorem weight_spaced (q : Text) : weight (q.flatMap spaceColon) = weight q := by
  induction q with
  | nil => rfl
  | cons c q ih =>
    have hc : weight (spaceColon c) = weight [c] := by
      unfold spaceColon
      split_ifs with hcolon
      · rw [hcolon]
        rfl
      · rfl
    rw [List.flatMap_cons, weight_append, ih, hc, ← weight_append, List.singleton_append]

/-- The slow path keeps every character but white space and quotes. -/
theorem weight_turn (s : Split) (c : Byte) :
    ((turn s c).token.map weight).sum + weight (turn s c).current =
      (s.token.map weight).sum + weight s.current + weight [c] := by
  have hpushed : (s.pushed.map weight).sum = (s.token.map weight).sum + weight s.current := by
    unfold Split.pushed
    split_ifs with h
    · rw [h]
      rfl
    · simp [weight_trim]
  have hkept : ((s.token.map weight).sum + weight (s.current ++ [c])) =
      (s.token.map weight).sum + weight s.current + weight [c] := by
    rw [weight_append, Nat.add_assoc]
  unfold turn
  split_ifs with h32 hsplit h123 h125 h91 h93 h34 hjson
  · subst h32
    exact hpushed
  · exact hkept
  · exact hkept
  · exact hkept
  · exact hkept
  · exact hkept
  · exact hkept
  · subst h34
    rfl
  · exact hkept

theorem weight_slow (x : Text) : (((x.foldl turn ⟨[], [], 0, false⟩).pushed).map weight).sum = weight x := by
  have hrun : ∀ s : Split, ((x.foldl turn s).token.map weight).sum + weight (x.foldl turn s).current =
      (s.token.map weight).sum + weight s.current + weight x := by
    induction x with
    | nil => exact fun s => rfl
    | cons c x ih =>
      intro s
      rw [List.foldl_cons, ih, weight_turn, Nat.add_assoc, ← weight_append, List.singleton_append]
  have hend := hrun ⟨[], [], 0, false⟩
  rw [List.map_nil, List.sum_nil, Nat.zero_add, show weight [] = 0 from rfl, Nat.zero_add] at hend
  rw [← hend, Split.pushed]
  split_ifs with h
  · rw [h]
    rfl
  · simp [weight_trim]

/-- The slow path drops the quotes, as long as nothing opens a brace or a bracket. -/
theorem quote_notMem_slow {x : Text} (hopen : (123 : Byte) ∉ x ∧ (91 : Byte) ∉ x) :
    ∀ t ∈ (x.foldl turn ⟨[], [], 0, false⟩).pushed, (34 : Byte) ∉ t := by
  have hpushed : ∀ s : Split, (34 : Byte) ∉ s.current → (∀ t ∈ s.token, (34 : Byte) ∉ t) →
      ∀ t ∈ s.pushed, (34 : Byte) ∉ t := by
    intro s hcurrent htoken t ht
    unfold Split.pushed at ht
    split_ifs at ht
    · exact htoken t ht
    · rcases List.mem_append.mp ht with ht | ht
      · exact htoken t ht
      · rw [List.mem_singleton.mp ht]
        exact fun hmem => hcurrent (mem_of_mem_trim hmem)
  have hrun : ∀ s : Split, s.jsoned ≤ 0 → (34 : Byte) ∉ s.current → (∀ t ∈ s.token, (34 : Byte) ∉ t) →
      ∀ t ∈ (x.foldl turn s).pushed, (34 : Byte) ∉ t := by
    induction x with
    | nil => exact fun s _ hcurrent htoken => hpushed s hcurrent htoken
    | cons c x ih =>
      intro s hjsoned hcurrent htoken
      simp only [List.mem_cons, not_or] at hopen
      rw [List.foldl_cons]
      have hstep : (turn s c).jsoned ≤ 0 ∧ (34 : Byte) ∉ (turn s c).current ∧
          ∀ t ∈ (turn s c).token, (34 : Byte) ∉ t := by
        have hkept : c ≠ 34 → (34 : Byte) ∉ s.current ++ [c] := by
          intro hc hmem
          rcases List.mem_append.mp hmem with hmem | hmem
          · exact hcurrent hmem
          · exact hc (List.mem_singleton.mp hmem).symm
        unfold turn
        split_ifs with h32 hsplit h123 h125 h91 h93 h34 hjson
        · exact ⟨hjsoned, by simp, hpushed s hcurrent htoken⟩
        · exact ⟨hjsoned, hkept (by rw [h32]; decide), htoken⟩
        · exact absurd h123.symm hopen.1.1
        · exact ⟨by simp only; omega, hkept (by rw [h125]; decide), htoken⟩
        · exact absurd h91.symm hopen.2.1
        · exact ⟨by simp only; omega, hkept (by rw [h93]; decide), htoken⟩
        · exact absurd hjson (not_lt.mpr hjsoned)
        · exact ⟨hjsoned, hcurrent, htoken⟩
        · exact ⟨hjsoned, hkept h34, htoken⟩
      exact ih ⟨hopen.1.2, hopen.2.2⟩ _ hstep.1 hstep.2.1 hstep.2.2
  exact hrun _ le_rfl (by simp) (by simp)

/-! ## Lines without blank pieces -/

/-- A piece that is not blank: white space is a space, a quoted text has a character that is neither white space
nor a colon, a run one that is no quote; and none closes a brace or a bracket. -/
def Piece.Solid (p : Piece) : Prop :=
  p.text.countP closes = 0 ∧
    match p with
    | .blank b => b = 32
    | .colon => True
    | .quoted q => ∃ c ∈ q, isSpace c = false ∧ c ≠ 58
    | .run w => ∃ c ∈ w, c ≠ 34

/-- What is matched of a piece; nothing of white space. -/
def Piece.matched (p : Piece) : Text := p.token.getD []

/-- What the fast splitter makes of a group of pieces. -/
def matchedText (g : List Piece) : Text := g.flatMap Piece.matched

theorem weight_matched (p : Piece) (hp : p.WellFormed) : weight p.matched = weight p.text := by
  cases p with
  | blank b => exact (weight_of_space fun c hc => by rwa [List.mem_singleton.mp hc]).symm
  | colon => rfl
  | quoted q => exact weight_spaced q
  | run w => rfl

theorem weight_written (p : Piece) : weight p.written = weight p.text := by
  cases p with
  | quoted q =>
    rw [Piece.written, ← List.singleton_append, weight_append, weight_append]
    simp [Piece.text, weight]
  | _ => rfl

/-- A matched piece that is not blank weighs something, and is taken for a colon only if it is one. -/
theorem Piece.Solid.spec {p : Piece} (h : p.Solid) (hp : p.WellFormed) (htoken : p.token ≠ none) :
    0 < weight p.text ∧ (trim p.matched = ascii ":" ↔ p = .colon) := by
  cases p with
  | blank b => exact absurd rfl htoken
  | colon => exact ⟨by decide, by decide⟩
  | quoted q =>
    obtain ⟨c, hc, hspace, hcolon⟩ := h.2
    refine ⟨List.countP_pos_iff.mpr ⟨c, hc, ?_⟩, ⟨fun htrim => ?_, fun h => by cases h⟩⟩
    · have hquote : c ≠ 34 := fun h34 => hp (h34 ▸ hc)
      simp [hspace, hquote]
    · have hspaced : c ∈ q.flatMap spaceColon := List.mem_flatMap.mpr ⟨c, hc, by simp [spaceColon, hcolon]⟩
      have hin := mem_trim_of_not_space hspaced hspace
      rw [show q.flatMap spaceColon = (Piece.quoted q).matched from rfl, htrim] at hin
      exact absurd (by simpa [ascii] using hin) hcolon
  | run w =>
    obtain ⟨c, hc, hquote⟩ := h.2
    have hspace := (hp.2 c hc).1
    refine ⟨List.countP_pos_iff.mpr ⟨c, hc, by simp [hspace, hquote]⟩, ⟨fun htrim => ?_, fun h => by cases h⟩⟩
    have hin := mem_trim_of_not_space hc hspace
    rw [show w = (Piece.run w).matched from rfl, htrim] at hin
    exact absurd (by simpa [ascii] using hin) (hp.2 c hc).2

/-- **The loop of the fast splitter cuts the pieces into pairs**, and a rest that is dropped. -/
theorem groups_of_run {Q : List Piece} (hQ : ∀ p ∈ Q, p.WellFormed ∧ p.Solid ∧ p.token ≠ none)
    {s s' : Pairs} {pending : List Piece} (hfirst : s.first = false)
    (hpending : (pending = [] ∧ s.namefound = false) ∨
      ∃ name k, pending = name :: List.replicate k .colon ∧ name ≠ .colon ∧ s.namefound = true ∧
        s.nvpair = matchedText pending)
    (hrun : (Q.filterMap Piece.token).foldlM Pairs.turn s = some s') :
    ∃ (groups : List (List Piece)) (rest : List Piece), pending ++ Q = groups.flatten ++ rest ∧
      (∀ g ∈ groups, ∃ name k value, g = argument name k value ∧ name ≠ .colon ∧ value ≠ .colon) ∧
      s'.finaltokens = s.finaltokens ++ groups.map matchedText := by
  induction Q generalizing s pending with
  | nil =>
    rw [List.filterMap_nil, List.foldlM_nil] at hrun
    obtain rfl : s = s' := Option.some.inj hrun
    exact ⟨[], pending, by simp, by simp, by simp⟩
  | cons p Q ih =>
    rw [List.forall_mem_cons] at hQ
    obtain ⟨⟨hwell, hsolid, htoken⟩, hQ⟩ := hQ
    obtain ⟨-, hcolon⟩ := hsolid.spec hwell htoken
    obtain ⟨t, ht⟩ := Option.ne_none_iff_exists'.mp htoken
    have hmatched : p.matched = t := by rw [Piece.matched, ht, Option.getD_some]
    rw [hmatched] at hcolon
    rw [List.filterMap_cons_some ht, List.foldlM_cons, Option.bind_eq_bind, Option.bind_eq_some_iff] at hrun
    obtain ⟨s1, hturn, hrun⟩ := hrun
    rcases hpending with ⟨rfl, hname⟩ | ⟨name, k, rfl, hnamecolon, hname, hnvpair⟩
    · -- the name of a pair
      have hp : p ≠ .colon := fun hp => by simp [Pairs.turn, hfirst, hname, hcolon.mpr hp] at hturn
      have hs1 : s1 = { s with namefound := true, nvpair := t } := by
        simpa [Pairs.turn, hfirst, hname, mt hcolon.mp hp, eq_comm] using hturn
      have hnv : s1.nvpair = matchedText [p] := by rw [hs1]; simp [matchedText, hmatched]
      obtain ⟨groups, rest, hsplit, hgroups, hfinal⟩ := ih hQ (by rw [hs1]; exact hfirst)
        (.inr ⟨p, 0, rfl, hp, by rw [hs1], hnv⟩) hrun
      exact ⟨groups, rest, hsplit, hgroups, by rw [hfinal, hs1]⟩
    · by_cases hp : p = .colon
      · -- one more colon
        have hs1 : s1 = { s with nvpair := s.nvpair ++ [58] } := by
          simpa [Pairs.turn, hfirst, hname, hcolon.mpr hp, eq_comm, ascii] using hturn
        have hcolons : name :: List.replicate (k + 1) Piece.colon = name :: List.replicate k .colon ++ [p] := by
          rw [List.replicate_succ', hp, List.cons_append]
        have hnv : s1.nvpair = matchedText (name :: List.replicate (k + 1) .colon) := by
          rw [hs1, hcolons, hp, hnvpair]
          simp [matchedText, Piece.matched, Piece.token]
        obtain ⟨groups, rest, hsplit, hgroups, hfinal⟩ := ih hQ (by rw [hs1]; exact hfirst)
          (.inr ⟨name, k + 1, rfl, hnamecolon, by rw [hs1]; exact hname, hnv⟩) hrun
        refine ⟨groups, rest, ?_, hgroups, by rw [hfinal, hs1]⟩
        rw [← hsplit, hcolons, List.append_assoc, List.singleton_append]
      · -- the value of the pair
        have hs1 : s1 = { s with namefound := false, nvpair := s.nvpair ++ t,
                                 finaltokens := s.finaltokens ++ [s.nvpair ++ t] } := by
          simpa [Pairs.turn, hfirst, hname, mt hcolon.mp hp, eq_comm] using hturn
        obtain ⟨groups, rest, hsplit, hgroups, hfinal⟩ := ih hQ (by rw [hs1]; exact hfirst)
          (.inl ⟨rfl, by rw [hs1]⟩) hrun
        refine ⟨argument name k p :: groups, rest, ?_, List.forall_mem_cons.mpr ⟨⟨name, k, p, rfl, hnamecolon, hp⟩,
          hgroups⟩, ?_⟩
        · rw [List.flatten_cons, List.append_assoc, ← hsplit]
          simp [argument]
        · have htext : matchedText (argument name k p) = s.nvpair ++ t := by
            rw [hnvpair, ← hmatched]
            simp [argument, matchedText]
          rw [hfinal, hs1, List.map_cons, htext, List.append_assoc, List.singleton_append]

/-- The characters of a line are those of its words, white space and quotes. -/
theorem weight_fullWords {P : List Piece} (hwell : ∀ p ∈ P, p.WellFormed) :
    ((fullWords P).flatten.map fun p => weight p.text).sum = weight (P.flatMap Piece.written) := by
  rw [flatten_fullWords]
  induction P with
  | nil => rfl
  | cons p P ih =>
    rw [List.forall_mem_cons] at hwell
    rw [List.flatMap_cons, weight_append, weight_written, ← ih hwell.2]
    cases hp : p.isSeparator with
    | true =>
      obtain rfl : p = .blank 32 := by simpa [Piece.isSeparator] using hp
      rw [List.filter_cons_of_neg (by simp [hp]), weight_of_space (by simp [Piece.text]; rfl), Nat.zero_add]
    | false => rw [List.filter_cons_of_pos (by simp [hp]), List.map_cons, List.sum_cons]

theorem weight_wordText (g : List Piece) : weight (wordText g) = (g.map fun p => weight p.text).sum := by
  induction g with
  | nil => rfl
  | cons p g ih => rw [wordText, List.flatMap_cons, weight_append, ← wordText, ih, List.map_cons, List.sum_cons]

theorem weight_matchedText {g : List Piece} (hwell : ∀ p ∈ g, p.WellFormed) :
    weight (matchedText g) = (g.map fun p => weight p.text).sum := by
  induction g with
  | nil => rfl
  | cons p g ih =>
    rw [List.forall_mem_cons] at hwell
    rw [matchedText, List.flatMap_cons, weight_append, ← matchedText, ih hwell.2, weight_matched p hwell.1,
      List.map_cons, List.sum_cons]

/-- A match is longer than its piece by two spaces for each colon between quotes. -/
theorem length_wordText_le {g : List Piece} (htoken : ∀ p ∈ g, p.token ≠ none) :
    (wordText g).length ≤ (matchedText g).length ∧
      ((matchedText g).length ≤ (wordText g).length → ∀ q, Piece.quoted q ∈ g → (58 : Byte) ∉ q) := by
  have hspaced : ∀ q : Text, (q.flatMap spaceColon).length = q.length + 2 * q.count 58 := by
    intro q
    induction q with
    | nil => rfl
    | cons c q ih =>
      rw [List.flatMap_cons, List.length_append, ih, List.length_cons]
      by_cases hc : c = 58
      · subst hc
        rw [List.count_cons_self, show (spaceColon 58).length = 3 from rfl]
        omega
      · rw [List.count_cons_of_ne hc, spaceColon, if_neg hc, List.length_singleton]
        omega
  induction g with
  | nil => exact ⟨le_rfl, by simp⟩
  | cons p g ih =>
    rw [List.forall_mem_cons] at htoken
    obtain ⟨hle, hquoted⟩ := ih htoken.2
    rw [wordText, matchedText, List.flatMap_cons, List.flatMap_cons, List.length_append, List.length_append,
      ← wordText, ← matchedText]
    cases p with
    | blank b => exact absurd rfl htoken.1
    | colon =>
      refine ⟨Nat.add_le_add_left hle 1, fun h q hq => hquoted (by simpa [Piece.text, Piece.matched, Piece.token] using h) q ?_⟩
      simpa using hq
    | quoted q' =>
      have hlength : (Piece.quoted q').matched.length = (Piece.quoted q').text.length + 2 * q'.count 58 := hspaced q'
      rw [hlength]
      refine ⟨by omega, fun h q hq => ?_⟩
      rcases List.mem_cons.mp hq with heq | hq
      · obtain rfl : q = q' := by simpa using heq
        exact List.count_eq_zero.mp (by omega)
      · exact hquoted (by omega) q hq
    | run w =>
      refine ⟨Nat.add_le_add_left hle _, fun h q hq => hquoted (by simpa [Piece.text, Piece.matched, Piece.token] using h) q ?_⟩
      simpa using hq

/-- The pieces of the words of a line without blank pieces. -/
theorem spec_of_mem_fullWords {P : List Piece} (hwell : ∀ p ∈ P, p.WellFormed) (hsolid : ∀ p ∈ P, p.Solid) :
    ∀ p ∈ (fullWords P).flatten, p.WellFormed ∧ p.Solid ∧ p.token ≠ none := by
  intro p hp
  rw [flatten_fullWords, List.mem_filter] at hp
  refine ⟨hwell p hp.1, hsolid p hp.1, fun htoken => ?_⟩
  cases p with
  | blank b =>
    have hb := (hsolid _ hp.1).2
    simp [Piece.isSeparator, hb] at hp
  | colon => cases htoken
  | quoted q => cases htoken
  | run w => cases htoken

/-- **What the fast splitter gives** where it gives anything: the first piece, and pairs. -/
theorem exists_groups {zInput : Text} (hsolid : ∀ p ∈ pieces (trim zInput), p.Solid)
    (hne : splitterQuotedPattern zInput ≠ []) :
    ∃ (first : Piece) (groups : List (List Piece)) (rest : List Piece),
      (fullWords (pieces (trim zInput))).flatten = first :: (groups.flatten ++ rest) ∧
      (∀ g ∈ groups, ∃ name k value, g = argument name k value ∧ name ≠ .colon ∧ value ≠ .colon) ∧
      splitterQuotedPattern zInput = ([first] :: groups).map matchedText := by
  have hspec := spec_of_mem_fullWords (pieces_spec (trim zInput)).2 hsolid
  have hfast : splitterQuotedPattern zInput = (((fullWords (pieces (trim zInput))).flatten.filterMap
      Piece.token).foldlM Pairs.turn ⟨true, false, [], []⟩).elim [] Pairs.finaltokens := by
    rw [splitterQuotedPattern, findTokens_spaced, filterMap_token_words]
  cases hflatten : (fullWords (pieces (trim zInput))).flatten with
  | nil =>
    rw [hflatten] at hfast
    exact absurd hfast hne
  | cons first Q =>
    rw [hflatten] at hfast hspec
    obtain ⟨⟨-, -, htoken⟩, hQ⟩ := List.forall_mem_cons.mp hspec
    obtain ⟨t, ht⟩ := Option.ne_none_iff_exists'.mp htoken
    have hturn : Pairs.turn ⟨true, false, [], []⟩ t = some ⟨false, false, [], [t]⟩ := rfl
    rw [List.filterMap_cons_some ht, List.foldlM_cons, hturn, Option.bind_eq_bind, Option.bind_some] at hfast
    cases hrun : (Q.filterMap Piece.token).foldlM Pairs.turn ⟨false, false, [], [t]⟩ with
    | none =>
      rw [hrun] at hfast
      exact absurd hfast hne
    | some s =>
      rw [hrun] at hfast
      obtain ⟨groups, rest, hsplit, hgroups, hfinal⟩ := groups_of_run hQ rfl (.inl ⟨rfl, rfl⟩) hrun
      rw [List.nil_append] at hsplit
      have hfirst : matchedText [first] = t := by simp [matchedText, Piece.matched, ht]
      exact ⟨first, groups, rest, by rw [hsplit], hgroups, by
        rw [hfast, Option.elim_some, hfinal, List.map_cons, hfirst]
        rfl⟩

/-- **Only where the line is made of pairs** do the splitters agree, unless a piece of it is blank. -/
theorem agreeing_of_eq {zInput : Text} (hfast : FastPath zInput) (hsolid : ∀ p ∈ pieces (trim zInput), p.Solid)
    (hne : splitterQuotedPattern zInput ≠ [])
    (heq : splitterQuotedPattern zInput = splitStringJSON true zInput) : Agreeing (pieces (trim zInput)) := by
  obtain ⟨first, groups, rest, hflatten, hgroups, hmatched⟩ := exists_groups hsolid hne
  obtain ⟨hwritten, hwell⟩ := pieces_spec (trim zInput)
  have hspec := spec_of_mem_fullWords hwell hsolid
  have hpos : ∀ p ∈ (fullWords (pieces (trim zInput))).flatten, 0 < weight p.text := fun p hp =>
    ((hspec p hp).2.1.spec (hspec p hp).1 (hspec p hp).2.2).1
  have hslow : splitStringJSON true zInput = ((trim zInput).foldl turn ⟨[], [], 0, false⟩).pushed := by
    rw [splitStringJSON, if_neg (by simp)]
  have hgroup_mem : ∀ g ∈ [first] :: groups, ∀ p ∈ g, p ∈ (fullWords (pieces (trim zInput))).flatten := by
    intro g hg p hp
    rw [hflatten]
    have hmem : p ∈ ([first] :: groups).flatten := List.mem_flatten.mpr ⟨g, hg, hp⟩
    rw [List.flatten_cons, List.singleton_append] at hmem
    rcases List.mem_cons.mp hmem with rfl | hmem
    · exact List.mem_cons_self ..
    · exact List.mem_cons_of_mem _ (List.mem_append_left _ hmem)
  -- nothing is dropped, since the slow splitter drops nothing
  have hrest : rest = [] := by
    have htotal := weight_fullWords hwell
    rw [hwritten, ← weight_slow, ← hslow, ← heq, hmatched, hflatten] at htotal
    have hsum : ((([first] :: groups).map matchedText).map weight).sum =
        (([first] :: groups).flatten.map fun p => weight p.text).sum := by
      rw [List.map_flatten, List.sum_flatten, List.map_map, List.map_map]
      refine congrArg List.sum (List.map_congr_left fun g hg => ?_)
      exact weight_matchedText fun p hp => (hspec p (hgroup_mem g hg p hp)).1
    rw [hsum, List.flatten_cons, List.singleton_append, List.map_cons, List.map_cons, List.sum_cons,
      List.sum_cons, List.map_append, List.sum_append] at htotal
    cases rest with
    | nil => rfl
    | cons p rest =>
      have hp := hpos p (by rw [hflatten]; simp)
      rw [List.map_cons, List.sum_cons] at htotal
      omega
  subst hrest
  rw [List.append_nil] at hflatten
  have hflatten' : (fullWords (pieces (trim zInput))).flatten = ([first] :: groups).flatten := hflatten
  -- no quote is in a run, since the slow splitter drops the quotes
  have hopen : (123 : Byte) ∉ trim zInput ∧ (91 : Byte) ∉ trim zInput :=
    ⟨fun h => hfast.2.1 (mem_of_mem_trim h), fun h => hfast.2.2 (mem_of_mem_trim h)⟩
  have hgroup_run : ∀ g ∈ [first] :: groups, ∀ w, Piece.run w ∈ g → (34 : Byte) ∉ w := by
    intro g hg w hw hquote
    have hmem : matchedText g ∈ splitStringJSON true zInput := by
      rw [← heq, hmatched]
      exact List.mem_map_of_mem hg
    rw [hslow] at hmem
    exact quote_notMem_slow hopen _ hmem (List.mem_flatMap.mpr ⟨_, hw, hquote⟩)
  have hruns : ∀ w, Piece.run w ∈ pieces (trim zInput) → (34 : Byte) ∉ w := by
    intro w hw
    have hfull : Piece.run w ∈ ([first] :: groups).flatten := by
      rw [← hflatten', flatten_fullWords]
      simpa [Piece.isSeparator] using hw
    obtain ⟨g, hg, hmem⟩ := List.mem_flatten.mp hfull
    exact hgroup_run g hg w hmem
  have hclosing : Closing (pieces (trim zInput)) :=
    List.pairwise_of_forall_mem_list fun p hp p' _ => .inl (hsolid p hp).1
  -- so the words are the first piece and the pairs
  have htext : ∀ w ∈ fullWords (pieces (trim zInput)), wordText w ≠ [] := by
    intro w hw hnil
    obtain ⟨p, w', rfl⟩ := List.exists_cons_of_ne_nil (by simpa using (List.mem_filter.mp hw).2 : w ≠ [])
    have hp := hpos p (List.mem_flatten.mpr ⟨_, hw, List.mem_cons_self ..⟩)
    have hweight := weight_wordText (p :: w')
    rw [hnil, List.map_cons, List.sum_cons] at hweight
    have hzero : weight [] = 0 := rfl
    omega
  have htexts : ((fullWords (pieces (trim zInput))).map fun w => trim (wordText w)) =
      ([first] :: groups).map matchedText := by
    rw [← trimmed_words htext, ← splitStringJSON_words hfast hruns hclosing, ← heq, hmatched]
  have hwords : fullWords (pieces (trim zInput)) = [first] :: groups := by
    refine eq_of_flatten_of_weight (fun p => weight p.text) hpos hflatten' ?_
    have hweights := congrArg (List.map weight) htexts
    rw [List.map_map, List.map_map] at hweights
    calc _ = (fullWords (pieces (trim zInput))).map (weight ∘ fun w => trim (wordText w)) :=
          List.map_congr_left fun w _ => by rw [Function.comp_apply, weight_trim, weight_wordText]
      _ = ([first] :: groups).map (weight ∘ matchedText) := hweights
      _ = _ := List.map_congr_left fun g hg => by
          rw [Function.comp_apply, weight_matchedText fun p hp => (hspec p (hgroup_mem g hg p hp)).1]
  rw [hwords] at htexts
  -- and no text is longer or shorter than its match
  have hgroup : ∀ g ∈ [first] :: groups, trim (wordText g) = wordText g ∧ ∀ p ∈ g, p ≠ .colon → p.IsPart := by
    intro g hg
    have htrim : trim (wordText g) = matchedText g := List.map_inj_left.mp htexts g hg
    obtain ⟨hle, hquoted⟩ := length_wordText_le fun p hp => (hspec p (hgroup_mem g hg p hp)).2.2
    have hle' := length_trim_le (wordText g)
    rw [htrim] at hle'
    refine ⟨trim_eq_of_length (by rw [htrim]; omega), fun p hp hcolon => ?_⟩
    cases p with
    | blank b => exact absurd rfl (hspec _ (hgroup_mem g hg _ hp)).2.2
    | colon => exact absurd rfl hcolon
    | quoted q => exact hquoted hle' q hp
    | run w => exact hgroup_run g hg w hp
  have htrimmed : ∀ g ∈ [first] :: groups, Trimmed (wordText g) := fun g hg =>
    ⟨htext g (by rw [hwords]; exact hg), (hgroup g hg).1⟩
  have hpadded : ∀ g : List Piece, Padded g g := fun g => ⟨[], [], by simp, by simp⟩
  refine ⟨hclosing, [first], groups, hwords, ⟨first, ?_, ?_, hpadded _⟩, fun g hg => ?_⟩
  · by_cases hcolon : first = .colon
    · exact .inr hcolon
    · exact .inl ((hgroup [first] (List.mem_cons_self ..)).2 first (by simp) hcolon)
  · simpa [wordText] using htrimmed [first] (List.mem_cons_self ..)
  · obtain ⟨name, k, value, rfl, hname, hvalue⟩ := hgroups g hg
    have hmem := List.mem_cons_of_mem [first] hg
    exact ⟨name, k, value, (hgroup _ hmem).2 name (by simp [argument]) hname,
      (hgroup _ hmem).2 value (by simp [argument]) hvalue, htrimmed _ hmem, hpadded _⟩

/-- **Where the splitters agree:** where the line is made of pairs, and nowhere else unless a piece of it is
blank. -/
theorem splitterQuotedPattern_eq (zInput : Text) (hfast : FastPath zInput)
    (hne : splitterQuotedPattern zInput ≠ []) :
    (Agreeing (pieces (trim zInput)) → splitterQuotedPattern zInput = splitStringJSON true zInput) ∧
      ((∀ p ∈ pieces (trim zInput), p.Solid) → splitterQuotedPattern zInput = splitStringJSON true zInput →
        Agreeing (pieces (trim zInput))) :=
  ⟨eq_of_agreeing hfast, fun hsolid => agreeing_of_eq hfast hsolid hne⟩

theorem splitterQuotedPattern_eq_quoted :
    splitterQuotedPattern (ascii "a b:\"c d\"") = splitStringJSON true (ascii "a b:\"c d\"") := by
  have hrun : splitterQuotedPattern (ascii "a b:\"c d\"") ≠ [] ∧
      pieces (trim (ascii "a b:\"c d\"")) = [.run [97], .blank 32, .run [98], .colon, .quoted [99, 32, 100]] := by
    decide +kernel
  refine (splitterQuotedPattern_eq (ascii "a b:\"c d\"") (by decide) hrun.1).1 ?_
  rw [hrun.2]
  refine ⟨by simp [Closing, Piece.text, closes], [.run [97]], [argument (.run [98]) 1 (.quoted [99, 32, 100])], rfl,
    ⟨.run [97], .inl (by simp [Piece.IsPart]), by decide, [], [], rfl, by simp⟩, fun w hw => ?_⟩
  obtain rfl := List.mem_singleton.mp hw
  exact ⟨.run [98], 1, .quoted [99, 32, 100], by simp [Piece.IsPart], by simp [Piece.IsPart], by decide,
    [], [], by simp, by simp⟩

/-- **A name without a value is dropped**, two words without a colon are put together, and a colon between quotes
gets spaces. -/
theorem splitterQuotedPattern_ne :
    (FastPath (ascii "help status") ∧ splitterQuotedPattern (ascii "help status") = [ascii "help"] ∧
      splitStringJSON true (ascii "help status") = [ascii "help", ascii "status"]) ∧
    splitterQuotedPattern (ascii "send to a") = [ascii "send", ascii "toa"] ∧
    splitterQuotedPattern (ascii "send to:\"a:b\"") = [ascii "send", ascii "to:a : b"] := by
  decide +kernel

end CommandRunner

end Minima
