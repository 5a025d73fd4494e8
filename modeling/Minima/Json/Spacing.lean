import Minima.Json.RoundTrip

/-! # Texts that differ in white space

A JSON text may have white space behind a brace that opens or a comma, and in front of a brace that closes,
and in its strings a slash or a line break may stand for itself. The parser does not see the difference.

* **`JSON.Spaced`** — the two texts, one written by the writer and one with white space.
* **`JSONParser.parseLoop_spaced`** — they are parsed alike. -/

namespace Minima

namespace JSON

/-- White space between tokens. -/
def Blank (c : Byte) : Prop := c = 32 ∨ c = 10 ∨ c = 13 ∨ c = 9

instance (c : Byte) : Decidable (Blank c) := inferInstanceAs (Decidable (_ ∨ _ ∨ _ ∨ _))

/-- White space. -/
def Blanks (ws : Text) : Prop := ∀ c ∈ ws, Blank c

/-- A character that is no white space, and none that white space is put next to or that begins a string. -/
def Interior (c : Byte) : Prop := c ∉ ([34, 44, 123, 125, 32, 10, 13, 9] : List Byte)

instance (c : Byte) : Decidable (Interior c) := inferInstanceAs (Decidable (_ ∉ _))

/-- How a character of a string may be written: a slash and a line break also as themselves. -/
def plainByte (b : Byte) : Text := if b = 47 ∨ b = 10 then [b] else escapeByte b

/-- **The same text with white space** behind opening braces and commas and in front of closing braces, and
with the slashes and line breaks of its strings as themselves. -/
inductive Spaced : Text → Text → Prop
  | nil : Spaced [] []
  | interior {c : Byte} {x y : Text} (hc : Interior c) (h : Spaced x y) : Spaced (c :: x) (c :: y)
  | opening {ws x y : Text} (hws : Blanks ws) (h : Spaced x y) : Spaced (123 :: x) (123 :: (ws ++ y))
  | comma {ws x y : Text} (hws : Blanks ws) (h : Spaced x y) : Spaced (44 :: x) (44 :: (ws ++ y))
  | closing {ws x y : Text} (hws : Blanks ws) (h : Spaced x y) : Spaced (125 :: x) (ws ++ 125 :: y)
  | string {x y : Text} (s : Text) (h : Spaced x y) :
    Spaced (34 :: (s.flatMap escapeByte ++ 34 :: x)) (34 :: (s.flatMap plainByte ++ 34 :: y))

end JSON

namespace Yylex

open JSON (Blank Blanks Interior Spaced plainByte)

variable (F : DoubleLibrary)

/-! ## White space and plain strings -/

/-- White space keeps the automaton where it goes from the start, and nothing else does. -/
theorem zzNext_blank (c : Byte) :
    (zzNext 0 c = some 5 ↔ Blank c) ∧ (zzNext 5 c = if Blank c then some 5 else none) := by
  unfold Blank
  have h := @forall_byte (fun c =>
    ((zzNext 0 c == some 5) == (c == 32 || c == 10 || c == 13 || c == 9)) &&
      (zzNext 5 c == if c == 32 || c == 10 || c == 13 || c == 9 then some 5 else none)) (by decide +kernel) c
  rw [Bool.and_eq_true, beq_iff_eq, Bool.eq_iff_iff] at h
  exact ⟨by simpa [or_assoc] using h.1, (beq_iff_eq.mp h.2).trans (if_congr (by simp [or_assoc]) rfl rfl)⟩

/-- White space is skipped. -/
theorem yylex_blank {c : Byte} (hc : Blank c) (y sb : Text) :
    yylex F ⟨c :: y, .YYINITIAL, sb⟩ = yylex F ⟨y, .YYINITIAL, sb⟩ := by
  -- the run of white space that begins in `y`
  set w := y.takeWhile fun c => Blank c with hw
  set r := y.dropWhile fun c => Blank c with hr
  have hy : y = w ++ r := (List.takeWhile_append_dropWhile).symm
  have hloop : ∀ d ∈ w, zzNext 5 d = some 5 := by
    intro d hd
    have hblank : Blank d := by simpa using List.mem_takeWhile_imp hd
    rw [(zzNext_blank d).2, if_pos hblank]
  have hstop : ∀ d ∈ r.head?, zzNext 5 d = none := by
    intro d hd
    have hnot := List.head?_dropWhile_not (fun c => decide (Blank c)) y
    rw [← hr, Option.mem_def.mp hd] at hnot
    rw [(zzNext_blank d).2, if_neg (by simpa using hnot)]
  have hrun : ∀ c u, Blank c → (∀ d ∈ u, zzNext 5 d = some 5) →
      yylex F ⟨(c :: u) ++ r, .YYINITIAL, sb⟩ = yylex F ⟨r, .YYINITIAL, sb⟩ := by
    intro c u hc hu
    have hscan : Scanner.scan tables (ZZ_LEXSTATE .YYINITIAL) ((c :: u) ++ r) none = some (5, r) := by
      rw [List.cons_append, Scanner.scan_accepting (b := c) ((zzNext_blank c).1.mpr hc) (by decide) (by decide),
        Scanner.scan_loop hu (by decide) (by decide), Scanner.scan_stop hstop]
    rw [yylex_of_scan F hscan]
    rfl
  rw [hy, ← List.cons_append, hrun c w hc hloop]
  cases hcases : w with
  | nil => rfl
  | cons d u =>
    have hd : Blank d := by
      have hmem : d ∈ y.takeWhile fun c => Blank c := by rw [← hw, hcases]; simp
      simpa using List.mem_takeWhile_imp hmem
    rw [hrun d u hd fun e he => hloop e (by rw [hcases]; simp [he])]

theorem yylex_blanks {ws : Text} (hws : Blanks ws) (y sb : Text) :
    yylex F ⟨ws ++ y, .YYINITIAL, sb⟩ = yylex F ⟨y, .YYINITIAL, sb⟩ := by
  induction ws with
  | nil => rfl
  | cons c ws ih =>
    rw [List.cons_append, yylex_blank F (hws c (by simp)), ih fun d hd => hws d (by simp [hd])]

/-- The scanner takes a slash or a line break that stands for itself. -/
theorem yylex_plainByte (b : Byte) (tail sb : Text) :
    yylex F ⟨plainByte b ++ tail, .STRING_BEGIN, sb⟩ = yylex F ⟨tail, .STRING_BEGIN, sb ++ decodeByte b⟩ := by
  unfold plainByte
  split_ifs with h
  · rcases h with rfl | rfl
    · exact yylex_plain F (by decide) (by decide) tail sb
    · exact yylex_plain F (by decide) (by decide) tail sb
  · exact yylex_escapeByte F b tail sb

/-! ## The other tokens -/

/-- The states that a token that is no string goes through. -/
def tokenStates : List ℕ :=
  [2, 3, 4, 7, 8, 9, 10, 11, 12, 13, 14, 15, 19, 20, 21, 22, 23, 33, 34, 35, 36, 37, 38, 40, 41]

/-- The actions of these states. -/
def tokenActions : List ℕ := [0, 1, 2, 5, 6, 7, 8, 9, 10, 21, 22, 23]

/-- The classes of the characters that a token that is no string begins with but does not go on with. -/
def boundaryClasses : List ℕ := [7, 9, 21, 22, 25]

/-- Their actions, and the rows of their transitions. -/
theorem tokenStates_rows : ∀ s ∈ tokenStates, unpacked ZZ_ACTION_PACKED_0 s ∈ tokenActions ∧
    ∀ p ∈ ((ZZ_TRANS.drop (ZZ_ROWMAP.getD s 0)).take 27).zipIdx,
      p.1 = -1 ∨ p.1.toNat ∈ tokenStates ∧ p.2 ∉ boundaryClasses := by
  decide +kernel

theorem tokenStates_spec {s : ℕ} (hs : s ∈ tokenStates) {k : ℕ} (hk : k < 27) :
    ZZ_TRANS.getD (ZZ_ROWMAP.getD s 0 + k) (-1) = -1 ∨
      (ZZ_TRANS.getD (ZZ_ROWMAP.getD s 0 + k) (-1)).toNat ∈ tokenStates ∧ k ∉ boundaryClasses := by
  rw [List.getD_eq_getElem?_getD]
  cases hget : ZZ_TRANS[ZZ_ROWMAP.getD s 0 + k]? with
  | none => exact .inl rfl
  | some v =>
    refine (tokenStates_rows s hs).2 (v, k) (List.mem_zipIdx_iff_getElem?.mpr ?_)
    rw [List.getElem?_take_of_lt hk, List.getElem?_drop]
    exact hget

/-- Where a character leads from the start, and its class. -/
theorem character_spec (c : Byte) : unpacked ZZ_CMAP_PACKED c.toNat < 27 ∧
    (¬ Interior c → unpacked ZZ_CMAP_PACKED c.toNat ∈ boundaryClasses) ∧
    (Interior c → ∃ t ∈ tokenStates, zzNext 0 c = some t ∧ tables.accepting t = true) := by
  unfold Interior
  have h := @forall_byte (fun c => decide (unpacked ZZ_CMAP_PACKED c.toNat < 27) &&
    if [34, 44, 123, 125, 32, 10, 13, 9].contains c then boundaryClasses.contains (unpacked ZZ_CMAP_PACKED c.toNat)
    else (zzNext 0 c).any fun t => tokenStates.contains t && tables.accepting t) (by decide +kernel) c
  rw [Bool.and_eq_true, decide_eq_true_eq] at h
  refine ⟨h.1, fun hc => ?_, fun hc => ?_⟩
  · rw [not_not] at hc
    have h2 := h.2
    rw [if_pos (by simpa using hc)] at h2
    simpa using h2
  · have h2 := h.2
    rw [if_neg (by simpa using hc)] at h2
    cases hnext : zzNext 0 c with
    | none => simp [hnext] at h2
    | some t => exact ⟨t, by simpa [hnext] using h2⟩

/-- A token that is no string goes on with none of the characters that are not interior. -/
theorem zzNext_token {s : ℕ} (hs : s ∈ tokenStates) (c : Byte) :
    (∀ t, zzNext s c = some t → t ∈ tokenStates) ∧ (¬ Interior c → zzNext s c = none) := by
  obtain ⟨hclass, hboundary, -⟩ := character_spec c
  have hrow := tokenStates_spec hs hclass
  refine ⟨fun t ht => ?_, fun hc => ?_⟩
  · simp only [zzNext] at ht
    rcases hrow with hnone | ⟨hmem, -⟩
    · rw [if_pos hnone] at ht
      cases ht
    · split_ifs at ht
      rw [← Option.some.inj ht]
      exact hmem
  · rcases hrow with hnone | ⟨-, hnot⟩
    · exact if_pos hnone
    · exact absurd (hboundary hc) hnot

/-- The action of such a state is a token or an exception, and leaves the rest of the scanner alone. -/
theorem act_of_mem {action : ℕ} (h : action ∈ tokenActions) (yytext : Text) (lexical : LexicalState)
    (sb : Text) : (∃ e, act F action yytext lexical sb = .error e) ∨
      ∃ token, act F action yytext lexical sb = .ok (some token, lexical, sb) := by
  simp only [tokenActions, List.mem_cons, List.not_mem_nil, or_false] at h
  rcases h with rfl | rfl | rfl | rfl | rfl | rfl | rfl | rfl | rfl | rfl | rfl | rfl
  · exact .inl ⟨_, rfl⟩
  · exact .inl ⟨_, rfl⟩
  · unfold act
    cases stoll yytext with
    | none => exact .inl ⟨_, rfl⟩
    | some v => exact .inr ⟨_, rfl⟩
  · exact .inr ⟨_, rfl⟩
  · exact .inr ⟨_, rfl⟩
  · exact .inr ⟨_, rfl⟩
  · exact .inr ⟨_, rfl⟩
  · exact .inr ⟨_, rfl⟩
  · exact .inr ⟨_, rfl⟩
  · unfold act
    cases F.stod yytext with
    | none => exact .inl ⟨_, rfl⟩
    | some v => exact .inr ⟨_, rfl⟩
  · exact .inr ⟨_, rfl⟩
  · exact .inr ⟨_, rfl⟩

/-- Where two such texts part, no token goes on. -/
theorem spaced_step {x y : Text} (h : Spaced x y) :
    (∀ s, s ∈ tokenStates → (∀ b ∈ x.head?, tables.next s b = none) ∧ ∀ b ∈ y.head?, tables.next s b = none) ∨
      ∃ b x' y', x = b :: x' ∧ y = b :: y' ∧ Spaced x' y' := by
  have hstop : ∀ {s : ℕ} {c : Byte} {x : Text}, s ∈ tokenStates → ¬ Interior c →
      ∀ b ∈ (c :: x).head?, tables.next s b = none := by
    intro s c x hs hc b hb
    obtain rfl : c = b := by simpa using hb
    exact (zzNext_token hs c).2 hc
  cases h with
  | nil => exact .inl fun s _ => ⟨by simp, by simp⟩
  | interior hc h => exact .inr ⟨_, _, _, rfl, rfl, h⟩
  | opening hws h =>
    exact .inl fun s hs => ⟨hstop hs (by decide), hstop hs (by decide)⟩
  | comma hws h =>
    exact .inl fun s hs => ⟨hstop hs (by decide), hstop hs (by decide)⟩
  | @closing ws x y hws h =>
    refine .inl fun s hs => ⟨hstop hs (by decide), ?_⟩
    cases ws with
    | nil => exact hstop hs (by decide)
    | cons c ws =>
      refine hstop hs ?_
      rcases hws c (by simp) with rfl | rfl | rfl | rfl <;> decide
  | string s h =>
    exact .inl fun s hs => ⟨hstop hs (by decide), hstop hs (by decide)⟩

/-- **The next token of the two texts**, where it is none that white space stands next to. -/
theorem yylex_interior {c : Byte} {x y : Text} (hc : Interior c) (h : Spaced x y) (sb : Text) :
    (∃ e, yylex F ⟨c :: x, .YYINITIAL, sb⟩ = .error e ∧ yylex F ⟨c :: y, .YYINITIAL, sb⟩ = .error e) ∨
      ∃ token rx ry, yylex F ⟨c :: x, .YYINITIAL, sb⟩ = .ok (some token, ⟨rx, .YYINITIAL, sb⟩) ∧
        yylex F ⟨c :: y, .YYINITIAL, sb⟩ = .ok (some token, ⟨ry, .YYINITIAL, sb⟩) ∧ Spaced rx ry := by
  obtain ⟨t, ht, hnext, haccepting⟩ := (character_spec c).2.2 hc
  have hmatch : ∃ t' rx ry w, Scanner.scan tables 0 (c :: x) none = some (t', rx) ∧
      Scanner.scan tables 0 (c :: y) none = some (t', ry) ∧ c :: x = w ++ rx ∧ c :: y = w ++ ry ∧
      Spaced rx ry ∧ t' ∈ tokenStates := by
    cases hfinal : tables.final t with
    | true =>
      exact ⟨t, x, y, [c], Scanner.scan_final hnext haccepting hfinal,
        Scanner.scan_final hnext haccepting hfinal, rfl, rfl, h, ht⟩
    | false =>
      rw [Scanner.scan_accepting hnext haccepting hfinal, Scanner.scan_accepting hnext haccepting hfinal]
      exact Scanner.scan_aligned (fun x y => spaced_step) (fun s b t hs => (zzNext_token hs b).1 t) ht ht h h
        ⟨[c], rfl, rfl⟩ ⟨[c], rfl, rfl⟩
  obtain ⟨t', rx, ry, w, hscan, hscan', hx, hy, hrest, ht'⟩ := hmatch
  rw [hx] at hscan ⊢
  rw [hy] at hscan' ⊢
  rw [@yylex_of_scan F w rx .YYINITIAL t' hscan sb, @yylex_of_scan F w ry .YYINITIAL t' hscan' sb]
  rcases act_of_mem F (tokenStates_rows t' ht').1 w .YYINITIAL sb with ⟨e, he⟩ | ⟨token, htoken⟩
  · exact .inl ⟨e, by rw [he], by rw [he]⟩
  · exact .inr ⟨token, rx, ry, by rw [htoken], by rw [htoken], hrest⟩

end Yylex

namespace JSONParser

open JSON (Spaced)
open Yylex (yylex)

variable (F : DoubleLibrary)

/-- Two texts with the same next token are parsed alike if what is behind the token is. -/
theorem parseLoop_congr {p : State F.Double} {y y' z z' : Yylex} {token : Yytoken F.Double}
    (hy : yylex F y = .ok (some token, z)) (hy' : yylex F y' = .ok (some token, z'))
    (h : ∀ p, parseLoop F p z = parseLoop F p z') : parseLoop F p y = parseLoop F p y' := by
  rw [parseLoop_some hy, parseLoop_some hy']
  cases step p token with
  | error e => rfl
  | ok p' => simp only [h]

/-- White space in front of a text is skipped. -/
theorem parseLoop_blanks {ws : Text} (hws : JSON.Blanks ws) (y sb : Text) (p : State F.Double) :
    parseLoop F p ⟨ws ++ y, .YYINITIAL, sb⟩ = parseLoop F p ⟨y, .YYINITIAL, sb⟩ := by
  have hlex := Yylex.yylex_blanks F hws y sb
  cases hy : yylex F ⟨y, .YYINITIAL, sb⟩ with
  | error e =>
    rw [parseLoop_lexThrows hy, parseLoop_lexThrows (hlex.trans hy)]
  | ok r =>
    obtain ⟨token, z⟩ := r
    cases token with
    | none =>
      rw [parseLoop, parseLoop]
      split <;> split <;> simp_all
    | some token => exact parseLoop_congr F (hlex.trans hy) hy fun p => rfl

/-- **White space does not matter:** the two texts are parsed alike. -/
theorem parseLoop_spaced {x y : Text} (h : Spaced x y) (p : State F.Double) (sb : Text) :
    parseLoop F p ⟨x, .YYINITIAL, sb⟩ = parseLoop F p ⟨y, .YYINITIAL, sb⟩ := by
  -- by the length of the compact text, of which every token takes something
  induction hn : x.length using Nat.strong_induction_on generalizing x y p sb with
  | _ n ih =>
    have hword : ∀ {w : Byte} {state : ℕ} {token : Yytoken F.Double} {x' : Text} (ws y' : Text),
        ([w], state) ∈ Yylex.words →
        (∀ sb, Yylex.act F (Yylex.unpacked Yylex.ZZ_ACTION_PACKED_0 state) [w] .YYINITIAL sb =
          .ok (some token, .YYINITIAL, sb)) → JSON.Blanks ws → Spaced x' y' → x = w :: x' →
        parseLoop F p ⟨w :: x', .YYINITIAL, sb⟩ = parseLoop F p ⟨w :: (ws ++ y'), .YYINITIAL, sb⟩ := by
      intro w state token x' ws y' hmem hact hws hspaced hx
      refine parseLoop_congr F (Yylex.yylex_word F (Yylex.reaches_word hmem) hact x' sb)
        (Yylex.yylex_word F (Yylex.reaches_word hmem) hact (ws ++ y') sb) fun p => ?_
      rw [parseLoop_blanks F hws]
      exact ih x'.length (by rw [← hn, hx, List.length_cons]; omega) hspaced p sb rfl
    cases h with
    | nil => rfl
    | @interior c x y hc h =>
      rcases Yylex.yylex_interior F hc h sb with ⟨e, hx, hy⟩ | ⟨token, rx, ry, hx, hy, hrest⟩
      · rw [parseLoop_lexThrows hx, parseLoop_lexThrows hy]
      · refine parseLoop_congr F hx hy fun p => ?_
        have hlt := Yylex.length_yylex_lt F hx
        exact ih rx.length (by rw [← hn]; exact hlt) hrest p sb rfl
    | @opening ws x y hws h =>
      exact @hword 123 10 .leftBrace x ws y (by simp [Yylex.words]) (fun _ => rfl) hws h rfl
    | @comma ws x y hws h =>
      exact @hword 44 14 .comma x ws y (by simp [Yylex.words, MiniNumber.ascii]) (fun _ => rfl) hws h rfl
    | @closing ws x y hws h =>
      rw [parseLoop_blanks F hws]
      exact @hword 125 11 .rightBrace x [] y (by simp [Yylex.words]) (fun _ => rfl) (by simp [JSON.Blanks]) h rfl
    | @string x y s h =>
      refine parseLoop_congr F (Yylex.yylex_literal F (Yylex.yylex_escapeByte F) s x sb)
        (Yylex.yylex_literal F (Yylex.yylex_plainByte F) s y sb) fun p => ?_
      exact ih x.length (by rw [← hn]; simp; omega) h p _ rfl

/-- **The parser does not see white space**, as long as the text does not grow too long by it. -/
theorem parse_spaced {x y : Text} (h : Spaced x y) (hx : x.length ≤ MAX_INPUT_SIZE)
    (hy : y.length ≤ MAX_INPUT_SIZE) : parse F x = parse F y := by
  rw [parse, parse, if_neg (not_lt.mpr hx), if_neg (not_lt.mpr hy), parseLoop_spaced F h]

end JSONParser

end Minima
