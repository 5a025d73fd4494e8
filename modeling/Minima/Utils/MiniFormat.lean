import Minima.Json.Spacing

/-! # `MiniFormat::JSONPretty`

The compact text of an object is spread over lines. The loop goes from one quote, brace or comma to the
next, and jumps from a quote behind the next one, whether the text escapes it or not. At the end slashes and
line breaks in strings are written as themselves.

* **`loop_spread`**, **`loop_odd`** — the loop ends exactly if the number of quotes in the text is even.
* **`JSONPretty_spaced`** — an even number of quotes in the keys and strings lets it end; if the quotes also
  shelter the braces and commas of the strings, the text is the compact one with white space, and is parsed
  like it.
* **`JSONPretty_quote`** — a string of one quote. -/

namespace Minima

namespace MiniFormat

open MiniNumber (ascii isSpace)
open JSON (Blank Blanks Interior Spaced plainByte escapeByte)
open JSONParser (noDoubles)

/-! ## The source -/

/-- `trim`. -/
def trim (s : Text) : Text := (s.dropWhile isSpace).rdropWhile isSpace

/-- `maketabstring`. -/
def maketabstring (zNum : ℕ) : Text := (List.replicate zNum (ascii "  ")).flatten

/-- `std::string::find` of a character from a position on. -/
def find (c : Byte) (s : Text) (pos : ℕ) : Option ℕ :=
  ((s.drop pos).findIdx? fun b => b == c).map fun i => pos + i

/-- `std::string::substr`. -/
def substr (s : Text) (pos len : ℕ) : Text := (s.drop pos).take len

/-- One position is found in front of another; what is not found is behind every position. -/
def before : Option ℕ → Option ℕ → Bool
  | some i, some j => i < j
  | some _, none => true
  | none, _ => false

/-- The variables of the loop of `JSONPretty`; `tabstring` is always `maketabstring tabs`. -/
structure Scan where
  currentpos : ℕ
  tabs : ℕ
  ret : Text
  deriving DecidableEq

/-- **One turn of the loop:** the variables behind it, or the text at its end. -/
def turn (work : Text) (s : Scan) : Scan ⊕ Text :=
  let oldpos := s.currentpos
  let indquotes := find 34 work s.currentpos
  let indopen := find 123 work s.currentpos
  let indclose := find 125 work s.currentpos
  let indcomma := find 44 work s.currentpos
  if indquotes = none ∧ indopen = none ∧ indclose = none ∧ indcomma = none then
    .inr (s.ret ++ work.drop s.currentpos)
  else if before indopen indclose && before indopen indcomma && before indopen indquotes then
    let i := indopen.getD 0
    .inl ⟨i + 1, s.tabs + 1,
      s.ret ++ substr work oldpos (i - oldpos) ++ (123 :: 10 :: maketabstring (s.tabs + 1))⟩
  else if before indclose indopen && before indclose indcomma && before indclose indquotes then
    let i := indclose.getD 0
    .inl ⟨i + 1, s.tabs - 1,
      s.ret ++ substr work oldpos (i - oldpos) ++ (10 :: (maketabstring (s.tabs - 1) ++ [125]))⟩
  else if before indquotes indopen && before indquotes indcomma && before indquotes indclose then
    let i := indquotes.getD 0
    let ret := s.ret ++ substr work oldpos (i - oldpos)
    match find 34 work (i + 1) with
    | some quoteend => .inl ⟨quoteend + 1, s.tabs, ret ++ substr work i (quoteend - i + 1)⟩
    -- `quoteend` is `npos`: the rest of the text is appended, and `npos + 1` is zero
    | none => .inl ⟨0, s.tabs, ret ++ work.drop i⟩
  else
    let i := indcomma.getD 0
    .inl ⟨i + 1, s.tabs, s.ret ++ substr work oldpos (i - oldpos) ++ (44 :: 10 :: maketabstring s.tabs)⟩

/-- The loop, for as many turns. -/
def loop : ℕ → Text → Scan → Option Text
  | 0, _, _ => none
  | turns + 1, work, s =>
    match turn work s with
    | .inl s' => loop turns work s'
    | .inr ret => some ret

/-- The replacement inside an occurrence, of which some characters are still to be passed, and outside. -/
def replaceFrom (pat repl : Text) : ℕ → Text → Text
  | _, [] => []
  | k + 1, _ :: cs => replaceFrom pat repl k cs
  | 0, c :: cs => if pat <+: c :: cs then repl ++ replaceFrom pat repl (pat.length - 1) cs
    else c :: replaceFrom pat repl 0 cs

/-- `replaceAllInPlace`. -/
def replaceAllInPlace (s pat repl : Text) : Text := if pat = [] then s else replaceFrom pat repl 0 s

/-- The clean-up of the response. -/
def cleanUp (ret : Text) : Text :=
  replaceAllInPlace (replaceAllInPlace ret (ascii "\\/") (ascii "/")) (ascii "\\n") [10]

section

variable {D : Type} (numberToString : D → Text)

/-- The compact text. -/
def work (entries : List (Text × JSON D)) : Text := trim (JSON.toJSONString numberToString (.object entries))

/-- **`JSONPretty`** of an object, for as many turns of the loop. -/
def JSONPretty (turns : ℕ) (entries : List (Text × JSON D)) : Option Text :=
  (loop turns (work numberToString entries) ⟨0, 0, []⟩).map cleanUp

end

/-! ## The loop -/

/-- The characters that the loop looks for. -/
def delimiters : Text := [34, 44, 123, 125]

/-- What the loop makes of a text, character by character: `quoted` between two quotes. -/
def spread : Bool → ℕ → Text → Text
  | _, _, [] => []
  | true, tabs, b :: x => b :: spread (b ≠ 34) tabs x
  | false, tabs, b :: x =>
    if b = 34 then 34 :: spread true tabs x
    else if b = 123 then 123 :: 10 :: (maketabstring (tabs + 1) ++ spread false (tabs + 1) x)
    else if b = 125 then 10 :: (maketabstring (tabs - 1) ++ 125 :: spread false (tabs - 1) x)
    else if b = 44 then 44 :: 10 :: (maketabstring tabs ++ spread false tabs x)
    else b :: spread false tabs x

theorem spread_plain {pre : Text} (h : ∀ c ∈ pre, c ∉ delimiters) (tabs : ℕ) (x : Text) :
    spread false tabs (pre ++ x) = pre ++ spread false tabs x := by
  induction pre with
  | nil => rfl
  | cons c pre ih =>
    have hc := h c (by simp)
    simp only [delimiters, List.mem_cons, List.not_mem_nil, or_false, not_or] at hc
    rw [List.cons_append, spread, if_neg hc.1, if_neg hc.2.2.1, if_neg hc.2.2.2, if_neg hc.2.1,
      ih fun d hd => h d (by simp [hd]), List.cons_append]

theorem spread_quoted {q : Text} (h : (34 : Byte) ∉ q) (tabs : ℕ) (x : Text) :
    spread true tabs (q ++ x) = q ++ spread true tabs x := by
  induction q with
  | nil => rfl
  | cons c q ih =>
    rw [List.mem_cons, not_or] at h
    rw [List.cons_append, spread, decide_eq_true (Ne.symm h.1), ih h.2, List.cons_append]

theorem find_append (c : Byte) (front x : Text) :
    find c (front ++ x) front.length = (x.findIdx? fun b => b == c).map fun i => front.length + i := by
  rw [find, List.drop_left]

/-- The first occurrence of a character. -/
theorem findIdx_of_notMem {c : Byte} {pre : Text} (h : c ∉ pre) (post : Text) :
    (pre ++ c :: post).findIdx? (fun b => b == c) = some pre.length := by
  have hnone : pre.findIdx? (fun b => b == c) = none := by
    rw [List.findIdx?_eq_none_iff]
    intro b hb
    exact beq_eq_false_iff_ne.mpr fun hbc => h (hbc ▸ hb)
  simp [List.findIdx?_append, hnone, List.findIdx?_cons]

/-- Another character is behind the first delimiter, if it is there. -/
theorem before_findIdx {c d : Byte} {pre : Text} (h : c ∉ pre) (hcd : c ≠ d) (n : ℕ) (post : Text) :
    before (some (n + pre.length)) (((pre ++ d :: post).findIdx? fun b => b == c).map fun i => n + i) = true ∧
      before (((pre ++ d :: post).findIdx? fun b => b == c).map fun i => n + i) (some (n + pre.length)) =
        false := by
  have hnone : pre.findIdx? (fun b => b == c) = none := by
    rw [List.findIdx?_eq_none_iff]
    intro b hb
    exact beq_eq_false_iff_ne.mpr fun hbc => h (hbc ▸ hb)
  have hd : (d == c) = false := beq_eq_false_iff_ne.mpr (Ne.symm hcd)
  rw [List.findIdx?_append, hnone, Option.none_or, List.findIdx?_cons, hd]
  cases post.findIdx? fun b => b == c with
  | none => exact ⟨rfl, rfl⟩
  | some i =>
    simp only [before, Option.map_some, Bool.false_eq_true, if_false, decide_eq_true_eq,
      decide_eq_false_iff_not]
    omega

section Turn

variable (front : Text) (tabs : ℕ) (ret : Text) {pre : Text}

/-- What the searches of a turn find: the next delimiter in front of all others. -/
theorem find_delimiter (hpre : ∀ c ∈ pre, c ∉ delimiters) {d : Byte} (hd : d ∈ delimiters) (post : Text) :
    find d (front ++ (pre ++ d :: post)) front.length = some (front.length + pre.length) ∧
      ∀ c ∈ delimiters, c ≠ d →
        before (find d (front ++ (pre ++ d :: post)) front.length)
            (find c (front ++ (pre ++ d :: post)) front.length) = true ∧
          before (find c (front ++ (pre ++ d :: post)) front.length)
            (find d (front ++ (pre ++ d :: post)) front.length) = false := by
  have hfind : find d (front ++ (pre ++ d :: post)) front.length = some (front.length + pre.length) := by
    rw [find_append, findIdx_of_notMem fun h => hpre d h hd]
    rfl
  refine ⟨hfind, fun c hc hcd => ?_⟩
  rw [hfind, find_append]
  exact before_findIdx (fun h => hpre c h hc) hcd front.length post

theorem turn_end {x : Text} (hx : ∀ c ∈ x, c ∉ delimiters) :
    turn (front ++ x) ⟨front.length, tabs, ret⟩ = .inr (ret ++ x) := by
  have hnone : ∀ c ∈ delimiters, find c (front ++ x) front.length = none := by
    intro c hc
    rw [find_append, List.findIdx?_eq_none_iff.mpr, Option.map_none]
    intro b hb
    exact beq_eq_false_iff_ne.mpr fun hbc => hx b hb (hbc ▸ hc)
  have hall := And.intro (hnone 34 (by decide))
    (And.intro (hnone 123 (by decide)) (And.intro (hnone 125 (by decide)) (hnone 44 (by decide))))
  unfold turn
  rw [if_pos hall, List.drop_left]

/-- The text in front of the delimiter. -/
theorem substr_pre (pre x : Text) : substr (front ++ (pre ++ x)) front.length
    (front.length + pre.length - front.length) = pre := by
  rw [substr, List.drop_left, Nat.add_sub_cancel_left, List.take_left]

theorem turn_open (hpre : ∀ c ∈ pre, c ∉ delimiters) (post : Text) :
    turn (front ++ (pre ++ 123 :: post)) ⟨front.length, tabs, ret⟩ =
      .inl ⟨(front ++ (pre ++ [123])).length, tabs + 1,
        ret ++ pre ++ (123 :: 10 :: maketabstring (tabs + 1))⟩ := by
  obtain ⟨hfind, hother⟩ := find_delimiter front hpre (by decide : (123 : Byte) ∈ delimiters) post
  unfold turn
  rw [if_neg (by simp [hfind]), if_pos (by
    rw [(hother 125 (by decide) (by decide)).1, (hother 44 (by decide) (by decide)).1,
      (hother 34 (by decide) (by decide)).1]
    rfl)]
  simp only [hfind, Option.getD_some, substr_pre, List.length_append, List.length_singleton, Nat.add_assoc]

theorem turn_close (hpre : ∀ c ∈ pre, c ∉ delimiters) (post : Text) :
    turn (front ++ (pre ++ 125 :: post)) ⟨front.length, tabs, ret⟩ =
      .inl ⟨(front ++ (pre ++ [125])).length, tabs - 1,
        ret ++ pre ++ (10 :: (maketabstring (tabs - 1) ++ [125]))⟩ := by
  obtain ⟨hfind, hother⟩ := find_delimiter front hpre (by decide : (125 : Byte) ∈ delimiters) post
  unfold turn
  rw [if_neg (by simp [hfind]), if_neg (by simp [(hother 123 (by decide) (by decide)).2]), if_pos (by
    rw [(hother 123 (by decide) (by decide)).1, (hother 44 (by decide) (by decide)).1,
      (hother 34 (by decide) (by decide)).1]
    rfl)]
  simp only [hfind, Option.getD_some, substr_pre, List.length_append, List.length_singleton, Nat.add_assoc]

theorem turn_comma (hpre : ∀ c ∈ pre, c ∉ delimiters) (post : Text) :
    turn (front ++ (pre ++ 44 :: post)) ⟨front.length, tabs, ret⟩ =
      .inl ⟨(front ++ (pre ++ [44])).length, tabs, ret ++ pre ++ (44 :: 10 :: maketabstring tabs)⟩ := by
  obtain ⟨hfind, hother⟩ := find_delimiter front hpre (by decide : (44 : Byte) ∈ delimiters) post
  unfold turn
  rw [if_neg (by simp [hfind]), if_neg (by simp [(hother 123 (by decide) (by decide)).2]),
    if_neg (by simp [(hother 125 (by decide) (by decide)).2]),
    if_neg (by simp [(hother 34 (by decide) (by decide)).2])]
  simp only [hfind, Option.getD_some, substr_pre, List.length_append, List.length_singleton, Nat.add_assoc]

/-- A quote and the next one. -/
theorem turn_quote (hpre : ∀ c ∈ pre, c ∉ delimiters) {q : Text} (hq : (34 : Byte) ∉ q) (post : Text) :
    turn (front ++ (pre ++ 34 :: (q ++ 34 :: post))) ⟨front.length, tabs, ret⟩ =
      .inl ⟨(front ++ (pre ++ 34 :: (q ++ [34]))).length, tabs, ret ++ pre ++ 34 :: (q ++ [34])⟩ := by
  obtain ⟨hfind, hother⟩ :=
    find_delimiter front hpre (by decide : (34 : Byte) ∈ delimiters) (q ++ 34 :: post)
  have hend : find 34 (front ++ (pre ++ 34 :: (q ++ 34 :: post))) (front.length + pre.length + 1) =
      some (front.length + pre.length + 1 + q.length) := by
    have happend := find_append 34 (front ++ (pre ++ [34])) (q ++ 34 :: post)
    rw [findIdx_of_notMem hq] at happend
    simpa [Nat.add_assoc] using happend
  have hquote : substr (front ++ (pre ++ 34 :: (q ++ 34 :: post))) (front.length + pre.length)
      (front.length + pre.length + 1 + q.length - (front.length + pre.length) + 1) = 34 :: (q ++ [34]) := by
    have hsplit : front ++ (pre ++ 34 :: (q ++ 34 :: post)) = (front ++ pre) ++ (34 :: (q ++ [34]) ++ post) := by
      simp
    have hlen : front.length + pre.length + 1 + q.length - (front.length + pre.length) + 1 =
        (34 :: (q ++ [34]) : Text).length := by
      simp
      omega
    rw [substr, hsplit, ← List.length_append, List.drop_left, List.length_append, hlen, List.take_left]
  unfold turn
  rw [if_neg (by simp [hfind]), if_neg (by simp [(hother 123 (by decide) (by decide)).2]),
    if_neg (by simp [(hother 125 (by decide) (by decide)).2]), if_pos (by
    rw [(hother 123 (by decide) (by decide)).1, (hother 44 (by decide) (by decide)).1,
      (hother 125 (by decide) (by decide)).1]
    rfl)]
  simp only [hfind, Option.getD_some, substr_pre, hend, hquote]
  congr 2
  simp
  omega

/-- A quote without another one: back to the start. -/
theorem turn_unmatched (hpre : ∀ c ∈ pre, c ∉ delimiters) {post : Text} (hpost : (34 : Byte) ∉ post) :
    turn (front ++ (pre ++ 34 :: post)) ⟨front.length, tabs, ret⟩ = .inl ⟨0, tabs, ret ++ pre ++ 34 :: post⟩ := by
  obtain ⟨hfind, hother⟩ := find_delimiter front hpre (by decide : (34 : Byte) ∈ delimiters) post
  have hend : find 34 (front ++ (pre ++ 34 :: post)) (front.length + pre.length + 1) = none := by
    have happend := find_append 34 (front ++ (pre ++ [34])) post
    rw [List.findIdx?_eq_none_iff.mpr, Option.map_none] at happend
    · simpa [Nat.add_assoc] using happend
    · intro b hb
      exact beq_eq_false_iff_ne.mpr fun hbc => hpost (hbc ▸ hb)
  have hdrop : (front ++ (pre ++ 34 :: post)).drop (front.length + pre.length) = 34 :: post := by
    rw [← List.append_assoc, ← List.length_append, List.drop_left]
  unfold turn
  rw [if_neg (by simp [hfind]), if_neg (by simp [(hother 123 (by decide) (by decide)).2]),
    if_neg (by simp [(hother 125 (by decide) (by decide)).2]), if_pos (by
    rw [(hother 123 (by decide) (by decide)).1, (hother 44 (by decide) (by decide)).1,
      (hother 125 (by decide) (by decide)).1]
    rfl)]
  simp only [hfind, Option.getD_some, substr_pre, hend, hdrop]

end Turn

/-! ## The end of the loop -/

/-- More turns give the same text. -/
theorem loop_mono {turns more : ℕ} {work out : Text} {s : Scan} (h : loop turns work s = some out)
    (hle : turns ≤ more) : loop more work s = some out := by
  induction turns generalizing more s with
  | zero => simp [loop] at h
  | succ turns ih =>
    obtain ⟨more, rfl⟩ : ∃ m, more = m + 1 := ⟨more - 1, by omega⟩
    rw [loop] at h ⊢
    cases hturn : turn work s with
    | inl s' =>
      rw [hturn] at h
      exact ih h (by omega)
    | inr ret =>
      rw [hturn] at h
      exact h

/-- The next delimiter of a text. -/
theorem delimiter_cases (x : Text) : (∀ c ∈ x, c ∉ delimiters) ∨
    ∃ pre d post, x = pre ++ d :: post ∧ (∀ c ∈ pre, c ∉ delimiters) ∧ d ∈ delimiters := by
  induction x with
  | nil => exact .inl (by simp)
  | cons c x ih =>
    by_cases hc : c ∈ delimiters
    · exact .inr ⟨[], c, x, rfl, by simp, hc⟩
    · rcases ih with hnone | ⟨pre, d, post, rfl, hpre, hd⟩
      · exact .inl (List.forall_mem_cons.mpr ⟨hc, hnone⟩)
      · exact .inr ⟨c :: pre, d, post, rfl, List.forall_mem_cons.mpr ⟨hc, hpre⟩, hd⟩

theorem count_of_plain {pre : Text} (h : ∀ c ∈ pre, c ∉ delimiters) : pre.count 34 = 0 :=
  List.count_eq_zero.mpr fun hmem => h 34 hmem (by decide)

/-- **The loop ends** behind an even number of quotes. -/
theorem loop_spread (front x : Text) (tabs : ℕ) (ret : Text) (heven : Even (x.count 34)) :
    ∃ turns, loop turns (front ++ x) ⟨front.length, tabs, ret⟩ = some (ret ++ spread false tabs x) := by
  -- by the length of what is in front of the position
  induction hn : x.length using Nat.strong_induction_on generalizing front x tabs ret with
  | _ n ih =>
    rcases delimiter_cases x with hnone | ⟨pre, d, post, rfl, hpre, hd⟩
    · refine ⟨1, ?_⟩
      have hspread : spread false tabs x = x := by simpa [spread] using spread_plain hnone tabs []
      rw [loop, turn_end front tabs ret hnone, hspread]
    · have hcount := count_of_plain hpre
      have hstep : ∀ (post' : Text) {front' ret' : Text} {tabs' : ℕ}, front ++ (pre ++ d :: post) = front' ++ post' →
          turn (front ++ (pre ++ d :: post)) ⟨front.length, tabs, ret⟩ = .inl ⟨front'.length, tabs', ret'⟩ →
          Even (post'.count 34) → post'.length ≤ post.length →
          ret' ++ spread false tabs' post' = ret ++ spread false tabs (pre ++ d :: post) →
          ∃ turns, loop turns (front ++ (pre ++ d :: post)) ⟨front.length, tabs, ret⟩ =
            some (ret ++ spread false tabs (pre ++ d :: post)) := by
        intro post' front' ret' tabs' hwork hturn heven' hlength hret
        obtain ⟨turns, hturns⟩ := ih post'.length (by rw [← hn]; simp; omega) front' post' tabs' ret' heven' rfl
        refine ⟨turns + 1, ?_⟩
        rw [loop, hturn, hwork]
        exact hturns.trans (by rw [hret])
      rw [spread_plain hpre] at hstep ⊢
      simp only [delimiters, List.mem_cons, List.not_mem_nil, or_false] at hd
      rcases hd with rfl | rfl | rfl | rfl
      · have hpost : (34 : Byte) ∈ post := by
          by_contra hnot
          rw [List.count_append, List.count_cons_self, hcount, List.count_eq_zero.mpr hnot] at heven
          exact absurd heven (by decide)
        obtain ⟨q, post, rfl, hq⟩ := List.eq_append_cons_of_mem hpost
        refine hstep post (by simp) (turn_quote front tabs ret hpre hq post) ?_ ?_ ?_
        · simpa [List.count_append, hcount, List.count_eq_zero.mpr hq, Nat.even_add_one] using heven
        · rw [List.length_append, List.length_cons]
          omega
        · simp [spread, spread_quoted hq]
      · refine hstep post (by simp) (turn_comma front tabs ret hpre post) ?_ le_rfl ?_
        · simpa [List.count_append, hcount] using heven
        · simp [spread]
      · refine hstep post (by simp) (turn_open front tabs ret hpre post) ?_ le_rfl ?_
        · simpa [List.count_append, hcount] using heven
        · simp [spread]
      · refine hstep post (by simp) (turn_close front tabs ret hpre post) ?_ le_rfl ?_
        · simpa [List.count_append, hcount] using heven
        · simp [spread]

/-- **The loop does not end** behind an odd number of quotes: the last one sends it back to the start. -/
theorem loop_odd {work : Text} (hwork : Odd (work.count 34)) (turns : ℕ) {front x : Text}
    (hsplit : work = front ++ x) (hodd : Odd (x.count 34)) (tabs : ℕ) (ret : Text) :
    loop turns work ⟨front.length, tabs, ret⟩ = none := by
  induction turns generalizing front x tabs ret with
  | zero => rfl
  | succ turns ih =>
    rw [loop]
    rcases delimiter_cases x with hnone | ⟨pre, d, post, rfl, hpre, hd⟩
    · rw [count_of_plain hnone] at hodd
      exact absurd hodd (by decide)
    · have hcount := count_of_plain hpre
      simp only [delimiters, List.mem_cons, List.not_mem_nil, or_false] at hd
      rcases hd with rfl | rfl | rfl | rfl
      · by_cases hpost : (34 : Byte) ∈ post
        · obtain ⟨q, post, rfl, hq⟩ := List.eq_append_cons_of_mem hpost
          rw [hsplit, turn_quote front tabs ret hpre hq post]
          rw [← hsplit]
          refine @ih _ post (by simp [hsplit]) ?_ _ _
          simpa [List.count_append, hcount, List.count_eq_zero.mpr hq, Nat.odd_add_one] using hodd
        · rw [hsplit, turn_unmatched front tabs ret hpre hpost, ← hsplit]
          exact @ih [] work rfl hwork _ _
      · rw [hsplit, turn_comma front tabs ret hpre post, ← hsplit]
        refine @ih _ post (by simp [hsplit]) ?_ _ _
        simpa [List.count_append, hcount] using hodd
      · rw [hsplit, turn_open front tabs ret hpre post, ← hsplit]
        refine @ih _ post (by simp [hsplit]) ?_ _ _
        simpa [List.count_append, hcount] using hodd
      · rw [hsplit, turn_close front tabs ret hpre post, ← hsplit]
        refine @ih _ post (by simp [hsplit]) ?_ _ _
        simpa [List.count_append, hcount] using hodd

/-! ## The clean-up -/

section CleanUp

variable {c : Byte} {repl rest : Text}

/-- A replacement passes what does not begin with its pattern. -/
theorem replace_pass {b : Byte} (h : b = 92 → rest.head? ≠ some c) :
    replaceAllInPlace (b :: rest) [92, c] repl = b :: replaceAllInPlace rest [92, c] repl := by
  have hnot : ¬ [92, c] <+: b :: rest := by
    rw [List.cons_prefix_cons, List.singleton_prefix_iff_head?_eq_some]
    exact fun hb => h hb.1.symm hb.2
  simp [replaceAllInPlace, replaceFrom, hnot]

theorem replace_hit (c : Byte) (repl rest : Text) :
    replaceAllInPlace (92 :: c :: rest) [92, c] repl = repl ++ replaceAllInPlace rest [92, c] repl := by
  simp [replaceAllInPlace, replaceFrom]

/-- A text without a backslash is passed. -/
theorem replace_plain {w : Text} (h : (92 : Byte) ∉ w) :
    replaceAllInPlace (w ++ rest) [92, c] repl = w ++ replaceAllInPlace rest [92, c] repl := by
  induction w with
  | nil => rfl
  | cons b w ih =>
    rw [List.mem_cons, not_or] at h
    rw [List.cons_append, replace_pass fun hb => absurd hb.symm h.1, ih h.2, List.cons_append]

theorem forall_byte {P : Byte → Prop} [DecidablePred P] (h : ∀ n < 256, P (UInt8.ofNat n)) (b : Byte) : P b := by
  have hb := h b.toNat b.toNat_lt
  rwa [UInt8.ofNat_toNat] at hb

set_option synthInstance.maxSize 512 in
/-- How a character of a string is written: in front of the clean-up, and behind it. -/
theorem escapeByte_spec (b : Byte) :
    (escapeByte b ≠ [] ∧ (escapeByte b).head? ≠ some 47 ∧ ((escapeByte b).head? = some 110 → b = 110)) ∧
    (b ≠ 92 → (92 : Byte) ∉ (escapeByte b).tail ∧ ((escapeByte b).head? = some 92 → (escapeByte b).tail ≠ [] ∧
      ((escapeByte b).tail.head? = some 47 → b = 47) ∧ ((escapeByte b).tail.head? = some 110 → b = 10))) ∧
    (b ≠ 34 → (34 : Byte) ∉ escapeByte b) ∧
    (b ∉ delimiters → (escapeByte b).all fun d => d ∉ delimiters) := by
  revert b
  apply forall_byte
  decide +kernel

/-- The slashes of a string are written as themselves. -/
def unslashed (b : Byte) : Text := if b = 47 then [47] else escapeByte b

/-- A replacement passes a character that is written otherwise than its pattern. -/
theorem replace_escapeByte {b : Byte} (hc : c ≠ 92) (h : (escapeByte b).head? = some 92 → b ≠ 92 →
    (escapeByte b).tail.head? ≠ some c) (hrest : b = 92 → rest.head? ≠ some c) :
    replaceAllInPlace (escapeByte b ++ rest) [92, c] repl =
      escapeByte b ++ replaceAllInPlace rest [92, c] repl := by
  by_cases hb : b = 92
  · subst hb
    have hescape : escapeByte 92 = [92, 92] := rfl
    rw [hescape, List.cons_append, List.singleton_append, replace_pass (by simpa using hc.symm),
      replace_pass fun _ => hrest rfl]
    rfl
  · obtain ⟨hplain, hback⟩ := (escapeByte_spec b).2.1 hb
    cases hw : escapeByte b with
    | nil => rfl
    | cons x w =>
      simp only [hw, List.head?_cons, List.tail_cons, Option.some.injEq] at h hplain hback
      rw [List.cons_append, replace_pass, replace_plain hplain, List.cons_append]
      intro hx
      cases w with
      | nil => exact absurd rfl (hback hx).1
      | cons y w => exact h hx hb

/-- What comes behind a character of a string. -/
theorem head_string (write : Byte → Text) (hwrite : ∀ b, write b ≠ []) (s r : Text) (c : Byte) :
    (s.flatMap write ++ 34 :: r).head? = some c ↔
      (s = [] ∧ c = 34) ∨ ∃ b s', s = b :: s' ∧ (write b).head? = some c := by
  cases s with
  | nil => simp [eq_comm]
  | cons b s =>
    cases hb : write b with
    | nil => exact absurd hb (hwrite b)
    | cons x w => simp [hb]

/-- **The slashes of a string** behind the first replacement. -/
theorem replace_slashes (s r : Text) :
    replaceAllInPlace (s.flatMap escapeByte ++ 34 :: r) [92, 47] [47] =
      s.flatMap unslashed ++ 34 :: replaceAllInPlace r [92, 47] [47] := by
  induction s with
  | nil => exact replace_pass fun h => absurd h (by decide)
  | cons b s ih =>
    rw [List.flatMap_cons, List.flatMap_cons, List.append_assoc, List.append_assoc, ← ih, unslashed]
    split_ifs with hb
    · subst hb
      exact replace_hit 47 [47] _
    · refine replace_escapeByte (by decide) (fun hhead hne hslash => ?_) fun _ hhead => ?_
      · exact hb (((escapeByte_spec b).2.1 hne).2 hhead |>.2.1 hslash)
      · rw [head_string escapeByte (fun b => (escapeByte_spec b).1.1)] at hhead
        rcases hhead with ⟨-, h34⟩ | ⟨b', s', -, h47⟩
        · exact absurd h34 (by decide)
        · exact (escapeByte_spec b').1.2.1 h47

/-- **The line breaks of a string** behind the second one, if no backslash is in front of an `n`. -/
theorem replace_breaks {s : Text} (hs : ¬ [92, 110] <:+: s) (r : Text) :
    replaceAllInPlace (s.flatMap unslashed ++ 34 :: r) [92, 110] [10] =
      s.flatMap plainByte ++ 34 :: replaceAllInPlace r [92, 110] [10] := by
  induction s with
  | nil => exact replace_pass fun h => absurd h (by decide)
  | cons b s ih =>
    have htail : ¬ [92, 110] <:+: s := fun h => hs (h.trans (List.infix_cons (List.infix_refl s)))
    rw [List.flatMap_cons, List.flatMap_cons, List.append_assoc, List.append_assoc, ← ih htail, unslashed,
      plainByte]
    split_ifs with h47 h1 h1
    · subst h47
      exact replace_pass fun h => absurd h (by decide)
    · exact absurd (.inl h47) h1
    · obtain rfl := h1.resolve_left h47
      exact replace_hit 110 [10] _
    · refine replace_escapeByte (by decide) (fun hhead hne hbreak => ?_) fun hb hhead => ?_
      · exact h1 (.inr (((escapeByte_spec b).2.1 hne).2 hhead |>.2.2 hbreak))
      · have hnil : ∀ b, unslashed b ≠ [] := by
          intro b
          unfold unslashed
          split_ifs
          · simp
          · exact (escapeByte_spec b).1.1
        rw [head_string unslashed hnil] at hhead
        rcases hhead with ⟨-, h34⟩ | ⟨b', s', rfl, h110⟩
        · exact absurd h34 (by decide)
        · have hb' : b' = 110 := by
            unfold unslashed at h110
            split_ifs at h110
            · simp at h110
            · exact (escapeByte_spec b').1.2.2 h110
          exact hs ⟨[], s', by rw [hb, hb']; rfl⟩

theorem cleanUp_plain {w : Text} (h : (92 : Byte) ∉ w) : cleanUp (w ++ rest) = w ++ cleanUp rest := by
  unfold cleanUp
  rw [show ascii "\\/" = [92, 47] from rfl, show ascii "\\n" = [92, 110] from rfl, replace_plain h,
    replace_plain h]

/-- **What the clean-up makes of a string.** -/
theorem cleanUp_string {s : Text} (hs : ¬ [92, 110] <:+: s) :
    cleanUp (34 :: (s.flatMap escapeByte ++ 34 :: rest)) = 34 :: (s.flatMap plainByte ++ 34 :: cleanUp rest) := by
  rw [← List.singleton_append, cleanUp_plain (by simp), List.singleton_append]
  congr 1
  unfold cleanUp
  rw [show ascii "\\/" = [92, 47] from rfl, show ascii "\\n" = [92, 110] from rfl,
    show ascii "/" = [47] from rfl, replace_slashes, replace_breaks hs]

end CleanUp

/-! ## The strings of an object -/

section Strings

variable {D : Type}

mutual

/-- The keys and the strings of a value, in the order in which they are written. -/
def strings : JSON D → List Text
  | .null => []
  | .bool _ => []
  | .long _ => []
  | .double _ => []
  | .string s => [s]
  | .array elements => stringsElements elements
  | .object entries => stringsEntries entries

def stringsElements : List (JSON D) → List Text
  | [] => []
  | val :: vals => strings val ++ stringsElements vals

def stringsEntries : List (Text × JSON D) → List Text
  | [] => []
  | (key, value) :: entries => key :: (strings value ++ stringsEntries entries)

end

/-- An odd number of quotes. -/
def odd (s : Text) : Bool := s.count 34 % 2 = 1

theorem odd_append (s s' : Text) : odd (s ++ s') = (odd s ^^ odd s') := by
  unfold odd
  rw [List.count_append, Bool.eq_iff_iff, Bool.xor_iff_ne]
  simp only [ne_eq, decide_eq_decide, decide_eq_true_eq]
  omega

/-- **The quotes shelter the text:** what the loop puts white space at has an even number of quotes in front
of it. -/
def Sheltered (front s : Text) : Prop :=
  ∀ pre c post, s = pre ++ c :: post → c ∈ ([44, 123, 125] : List Byte) → odd (front ++ pre) = false

theorem Sheltered.left {front s s' : Text} (h : Sheltered front (s ++ s')) : Sheltered front s :=
  fun pre c post hs hc => h pre c (post ++ s') (by rw [hs]; simp) hc

theorem Sheltered.right {front s s' : Text} (h : Sheltered front (s ++ s')) : Sheltered (front ++ s) s' := by
  intro pre c post hs hc
  rw [List.append_assoc]
  exact h (s ++ pre) c post (by rw [hs]; simp) hc

theorem sheltered_cons {front s : Text} {c : Byte} : Sheltered front (c :: s) ↔
    (c ∈ ([44, 123, 125] : List Byte) → odd front = false) ∧ Sheltered (front ++ [c]) s := by
  refine ⟨fun h => ⟨fun hc => by simpa using h [] c s rfl hc, Sheltered.right h⟩, ?_⟩
  rintro ⟨hc, hs⟩ pre d post hsplit hd
  cases pre with
  | nil =>
    obtain ⟨rfl, -⟩ := List.cons.inj hsplit
    simpa using hc hd
  | cons e pre =>
    obtain ⟨rfl, hpost⟩ := List.cons.inj hsplit
    simpa using hs pre d post hpost hd

instance decidableSheltered : ∀ front s, Decidable (Sheltered front s)
  | _, [] => isTrue fun pre _ _ hs => by simp at hs
  | front, c :: s =>
    have := decidableSheltered (front ++ [c]) s
    decidable_of_iff _ sheltered_cons.symm

/-- The loop leaves the text of a sheltered string as it is. -/
theorem spread_escape {front s : Text} (h : Sheltered front s) (tabs : ℕ) (x : Text) :
    spread (!odd front) tabs (s.flatMap escapeByte ++ x) =
      s.flatMap escapeByte ++ spread (!odd (front ++ s)) tabs x := by
  induction s generalizing front with
  | nil => simp
  | cons b s ih =>
    rw [← List.singleton_append] at h
    have hrest := ih h.right
    rw [List.append_assoc, List.singleton_append] at hrest
    rw [List.flatMap_cons, List.append_assoc, List.append_assoc, ← hrest, odd_append]
    by_cases hb : b = 34
    · subst hb
      cases odd front <;> rfl
    · have hodd : odd [b] = false := by simp [odd, hb]
      rw [hodd, Bool.xor_false]
      cases hfront : odd front with
      | false => exact spread_quoted ((escapeByte_spec b).2.2.1 hb) tabs _
      | true =>
        have hnot : b ∉ delimiters := by
          intro hmem
          have hshelter := h.left [] b [] rfl (by simpa [delimiters, hb] using hmem)
          rw [List.append_nil, hfront] at hshelter
          exact absurd hshelter (by decide)
        have hall := (escapeByte_spec b).2.2.2 hnot
        exact spread_plain (by simpa using hall) tabs _

/-- The loop and the clean-up make of a text one that is the same but for white space, whatever is behind it. -/
def Spreads (quoted : Bool) (x : Text) (quoted' : Bool) : Prop :=
  ∀ tabs, ∃ tabs' y, (∀ rest, cleanUp (spread quoted tabs (x ++ rest)) = y ++ cleanUp (spread quoted' tabs' rest)) ∧
    ∀ x' y', Spaced x' y' → Spaced (x ++ x') (y ++ y')

namespace Spreads

variable {n n' n'' : Bool} {x x' front s : Text}

theorem nil : Spreads n [] n := fun tabs => ⟨tabs, [], fun _ => rfl, fun _ _ h => h⟩

theorem append (h : Spreads n x n') (h' : Spreads n' x' n'') : Spreads n (x ++ x') n'' := by
  intro tabs
  obtain ⟨tabs', y, hy, hspaced⟩ := h tabs
  obtain ⟨tabs'', y', hy', hspaced'⟩ := h' tabs'
  refine ⟨tabs'', y ++ y', fun rest => ?_, fun u v huv => ?_⟩
  · rw [List.append_assoc, hy, hy', List.append_assoc]
  · rw [List.append_assoc, List.append_assoc]
    exact hspaced _ _ (hspaced' u v huv)

/-- What the loop does not look for stays as it is. -/
theorem interior (h : ∀ c ∈ x, Interior c ∧ c ≠ 92) : Spreads n x n := by
  intro tabs
  have hback : (92 : Byte) ∉ x := fun hmem => (h 92 hmem).2 rfl
  have hplain : ∀ c ∈ x, c ∉ delimiters := by
    intro c hc hmem
    have hinterior := (h c hc).1
    simp only [Interior, delimiters, List.mem_cons, List.not_mem_nil, or_false] at hinterior hmem
    exact hinterior (by tauto)
  refine ⟨tabs, x, fun rest => ?_, fun u v huv => ?_⟩
  · rw [← cleanUp_plain hback]
    cases n with
    | false => rw [spread_plain hplain]
    | true => rw [spread_quoted fun hmem => hplain 34 hmem (by decide)]
  · clear hback hplain
    induction x with
    | nil => exact huv
    | cons c x ih => exact .interior (h c (by simp)).1 (ih fun d hd => h d (by simp [hd]))

/-- A sheltered string stays as it is but for its slashes and line breaks. -/
theorem string (h : Sheltered front s) (hs : ¬ [92, 110] <:+: s) :
    Spreads (odd front) (JSON.writeQuotedEscaped s) (odd (front ++ s)) := by
  intro tabs
  have hflip : ∀ n x, spread n tabs (34 :: x) = 34 :: spread (!n) tabs x := fun n x => by cases n <;> rfl
  refine ⟨tabs, 34 :: (s.flatMap plainByte ++ [34]), fun rest => ?_, fun u v huv => ?_⟩
  · have hwritten : JSON.writeQuotedEscaped s ++ rest = 34 :: (s.flatMap escapeByte ++ 34 :: rest) := by
      simp [JSON.writeQuotedEscaped, JSON.escape, ascii]
    rw [hwritten, hflip, spread_escape h, hflip, Bool.not_not, cleanUp_string hs, List.cons_append,
      List.append_assoc, List.singleton_append]
  · have hspaced := Spaced.string s huv
    simpa [JSON.writeQuotedEscaped, JSON.escape, ascii] using hspaced

/-- The white space behind a line break. -/
theorem blanks_tabs (tabs : ℕ) : Blanks (10 :: maketabstring tabs) ∧ (92 : Byte) ∉ 10 :: maketabstring tabs := by
  have hspace : ∀ c ∈ maketabstring tabs, c = 32 := by
    intro c hc
    obtain ⟨w, hw, hmem⟩ := List.mem_flatten.mp hc
    rw [List.eq_of_mem_replicate hw] at hmem
    simpa [ascii] using hmem
  refine ⟨List.forall_mem_cons.mpr ⟨by decide, fun c hc => by rw [hspace c hc]; decide⟩, fun hmem => ?_⟩
  rcases List.mem_cons.mp hmem with h | h
  · exact absurd h (by decide)
  · exact absurd (hspace 92 h) (by decide)

/-- A brace or a comma of the object has white space put next to it unless the loop takes it for one of a
string. -/
theorem delimiter {d : Byte} (hd : d ∈ ([44, 123, 125] : List Byte)) : Spreads n [d] n := by
  intro tabs
  cases n with
  | true =>
    refine ⟨tabs, [d], fun rest => ?_, fun u v huv => ?_⟩
    · have hquote : (34 : Byte) ∉ [d] := by
        rintro hmem
        rw [← List.mem_singleton.mp hmem] at hd
        exact absurd hd (by decide)
      have hback : (92 : Byte) ∉ [d] := by
        rintro hmem
        rw [← List.mem_singleton.mp hmem] at hd
        exact absurd hd (by decide)
      rw [spread_quoted hquote, cleanUp_plain hback]
    · have hnil : Blanks [] := by simp [Blanks]
      simp only [List.mem_cons, List.not_mem_nil, or_false] at hd
      rcases hd with rfl | rfl | rfl
      · exact .comma hnil huv
      · exact .opening hnil huv
      · exact .closing hnil huv
  | false =>
    simp only [List.mem_cons, List.not_mem_nil, or_false] at hd
    rcases hd with rfl | rfl | rfl
    · obtain ⟨hblanks, hback⟩ := blanks_tabs tabs
      refine ⟨tabs, 44 :: 10 :: maketabstring tabs, fun rest => ?_, fun u v huv => .comma hblanks huv⟩
      rw [← cleanUp_plain (by simpa using hback)]
      rfl
    · obtain ⟨hblanks, hback⟩ := blanks_tabs (tabs + 1)
      refine ⟨tabs + 1, 123 :: 10 :: maketabstring (tabs + 1), fun rest => ?_, fun u v huv => .opening hblanks huv⟩
      rw [← cleanUp_plain (by simpa using hback)]
      rfl
    · obtain ⟨hblanks, hback⟩ := blanks_tabs (tabs - 1)
      refine ⟨tabs - 1, 10 :: maketabstring (tabs - 1) ++ [125], fun rest => ?_, fun u v huv => ?_⟩
      · rw [← cleanUp_plain (by simpa using hback)]
        simp [spread]
      · rw [List.append_assoc]
        exact .closing hblanks huv

end Spreads

end Strings

/-! ## The text of an object -/

section Texts

variable {D : Type} (numberToString : D → Text)

theorem interior_integerToString (v : ℤ) : ∀ c ∈ JSON.integerToString v, Interior c ∧ c ≠ 92 := by
  have hdigit : ∀ c, MiniNumber.isDigit c = true → Interior c ∧ c ≠ 92 := by
    intro c hc
    unfold MiniNumber.isDigit at hc
    rw [Bool.and_eq_true, decide_eq_true_eq, decide_eq_true_eq] at hc
    refine ⟨fun hmem => ?_, fun h => ?_⟩
    · simp only [List.mem_cons, List.not_mem_nil, or_false] at hmem
      rcases hmem with rfl | rfl | rfl | rfl | rfl | rfl | rfl | rfl <;> exact absurd hc (by decide)
    · subst h
      exact absurd hc (by decide)
  intro c hc
  unfold JSON.integerToString at hc
  split_ifs at hc
  · rcases List.mem_cons.mp hc with rfl | hc
    · decide
    · exact hdigit c (MiniNumber.isDigit_of_mem_digitsText hc)
  · exact hdigit c (MiniNumber.isDigit_of_mem_digitsText hc)

theorem odd_interior {x : Text} (h : ∀ c ∈ x, Interior c ∧ c ≠ 92) : odd x = false := by
  have hquote : (34 : Byte) ∉ x := fun hmem => (h 34 hmem).1 (by decide)
  simp [odd, List.count_eq_zero.mpr hquote]

/-- A string has the quotes around it and its own. -/
theorem odd_writeQuotedEscaped (s : Text) : odd (JSON.writeQuotedEscaped s) = odd s := by
  have hescape : odd (JSON.escape s) = odd s := by
    induction s with
    | nil => rfl
    | cons b s ih =>
      rw [JSON.escape, List.flatMap_cons, odd_append, ← List.singleton_append (l := s), odd_append, ← ih,
        JSON.escape]
      congr 1
      by_cases hb : b = 34
      · subst hb
        rfl
      · have hcount := List.count_eq_zero.mpr ((escapeByte_spec b).2.2.1 hb)
        simp [odd, hcount, hb]
  have hquote : odd (ascii "\"") = true := rfl
  rw [JSON.writeQuotedEscaped, odd_append, odd_append, hescape, hquote]
  cases odd s <;> rfl

theorem interior_of_all {w : Text} (h : (w.all fun c => Interior c ∧ c ≠ 92) = true) :
    ∀ c ∈ w, Interior c ∧ c ≠ 92 := by
  simpa using h

mutual

/-- **The quotes of a value** are those of its strings, and two around each. -/
theorem odd_writeJSONString (hdouble : ∀ d, ∀ c ∈ numberToString d, Interior c ∧ c ≠ 92) : ∀ v : JSON D,
    odd (JSON.writeJSONString numberToString v) = odd (strings v).flatten
  | .null => rfl
  | .bool true => rfl
  | .bool false => rfl
  | .long v => odd_interior (interior_integerToString v)
  | .double d => odd_interior (hdouble d)
  | .string s => by rw [JSON.writeJSONString, strings, odd_writeQuotedEscaped, List.flatten_singleton]
  | .array elements => by
    have hopen : odd (ascii "[") = false := rfl
    have hclose : odd (ascii "]") = false := rfl
    rw [JSON.writeJSONString, strings, odd_append, odd_append, odd_writeElements hdouble elements true, hopen,
      hclose, Bool.false_xor, Bool.xor_false]
  | .object entries => by
    have hopen : odd [123] = false := rfl
    have hclose : odd [125] = false := rfl
    rw [JSON.writeJSONString, strings, odd_append, odd_append, odd_writeEntries hdouble entries true, hopen,
      hclose, Bool.false_xor, Bool.xor_false]

theorem odd_writeElements (hdouble : ∀ d, ∀ c ∈ numberToString d, Interior c ∧ c ≠ 92) :
    ∀ (vals : List (JSON D)) (first : Bool),
    odd (JSON.writeElements numberToString first vals) = odd (stringsElements vals).flatten
  | [], _ => rfl
  | val :: vals, first => by
    have hcomma : odd (if first then [] else ascii ",") = false := by cases first <;> rfl
    rw [JSON.writeElements, stringsElements, List.flatten_append, odd_append, odd_append, odd_append,
      odd_writeJSONString hdouble val, odd_writeElements hdouble vals false, hcomma, Bool.false_xor]

theorem odd_writeEntries (hdouble : ∀ d, ∀ c ∈ numberToString d, Interior c ∧ c ≠ 92) :
    ∀ (entries : List (Text × JSON D)) (first : Bool),
    odd (JSON.writeEntries numberToString first entries) = odd (stringsEntries entries).flatten
  | [], _ => rfl
  | (key, value) :: entries, first => by
    have hcomma : odd (if first then [] else ascii ",") = false := by cases first <;> rfl
    have hcolon : odd (ascii ":") = false := rfl
    rw [JSON.writeEntries, stringsEntries, List.flatten_cons, List.flatten_append, odd_append, odd_append,
      odd_append, odd_append, odd_append, odd_append, odd_writeQuotedEscaped, odd_writeJSONString hdouble value,
      odd_writeEntries hdouble entries false, hcomma, hcolon, Bool.false_xor, Bool.xor_false, Bool.xor_assoc]

end

/-- The strings that come back from the clean-up: no backslash in front of an `n`. -/
def Unbroken (texts : List Text) : Prop := ∀ s ∈ texts, ¬ [92, 110] <:+: s

theorem Unbroken.append {texts texts' : List Text} (h : Unbroken (texts ++ texts')) :
    Unbroken texts ∧ Unbroken texts' :=
  ⟨fun s hs => h s (List.mem_append_left _ hs), fun s hs => h s (List.mem_append_right _ hs)⟩

/-- The comma in front of all but the first. -/
theorem spreads_comma (n first : Bool) : Spreads n (if first then [] else ascii ",") n := by
  cases first with
  | true => exact .nil
  | false => exact .delimiter (by decide)

/-- A value without a string. -/
theorem spreads_scalar {front w : Text} (h : ∀ c ∈ w, Interior c ∧ c ≠ 92) :
    Spreads (odd front) w (odd (front ++ ([] : List Text).flatten)) := by
  rw [List.flatten_nil, List.append_nil]
  exact .interior h

mutual

/-- **What the loop and the clean-up make of a value.** -/
theorem spreads_value (hdouble : ∀ d, ∀ c ∈ numberToString d, Interior c ∧ c ≠ 92) : ∀ (v : JSON D) (front : Text),
    Sheltered front (strings v).flatten → Unbroken (strings v) →
    Spreads (odd front) (JSON.writeJSONString numberToString v) (odd (front ++ (strings v).flatten))
  | .null, _, _, _ => spreads_scalar (interior_of_all rfl)
  | .bool true, _, _, _ => spreads_scalar (interior_of_all rfl)
  | .bool false, _, _, _ => spreads_scalar (interior_of_all rfl)
  | .long v, _, _, _ => spreads_scalar (interior_integerToString v)
  | .double d, _, _, _ => spreads_scalar (hdouble d)
  | .string s, front, h, hs => by
    rw [strings, List.flatten_singleton] at h ⊢
    exact .string h (hs s (by simp [strings]))
  | .array elements, front, h, hs => by
    rw [JSON.writeJSONString]
    exact ((Spreads.interior (interior_of_all rfl)).append
      (spreads_elements hdouble elements true front h hs)).append (.interior (interior_of_all rfl))
  | .object entries, front, h, hs => by
    rw [JSON.writeJSONString]
    exact ((Spreads.delimiter (by decide)).append (spreads_entries hdouble entries true front h hs)).append
      (.delimiter (by decide))

theorem spreads_elements (hdouble : ∀ d, ∀ c ∈ numberToString d, Interior c ∧ c ≠ 92) :
    ∀ (vals : List (JSON D)) (first : Bool) (front : Text),
    Sheltered front (stringsElements vals).flatten → Unbroken (stringsElements vals) →
    Spreads (odd front) (JSON.writeElements numberToString first vals)
      (odd (front ++ (stringsElements vals).flatten))
  | [], _, front, _, _ => by
    rw [stringsElements, List.flatten_nil, List.append_nil]
    exact .nil
  | val :: vals, first, front, h, hs => by
    rw [stringsElements, List.flatten_append] at h
    have hvals := spreads_elements hdouble vals false _ h.right hs.append.2
    rw [List.append_assoc, ← List.flatten_append] at hvals
    rw [JSON.writeElements, stringsElements]
    exact ((spreads_comma _ first).append (spreads_value hdouble val front h.left hs.append.1)).append hvals

theorem spreads_entries (hdouble : ∀ d, ∀ c ∈ numberToString d, Interior c ∧ c ≠ 92) :
    ∀ (entries : List (Text × JSON D)) (first : Bool) (front : Text),
    Sheltered front (stringsEntries entries).flatten → Unbroken (stringsEntries entries) →
    Spreads (odd front) (JSON.writeEntries numberToString first entries)
      (odd (front ++ (stringsEntries entries).flatten))
  | [], _, front, _, _ => by
    rw [stringsEntries, List.flatten_nil, List.append_nil]
    exact .nil
  | (key, value) :: entries, first, front, h, hs => by
    rw [stringsEntries, List.flatten_cons, List.flatten_append] at h
    have hkey := Spreads.string h.left (hs key (by simp [stringsEntries]))
    have hrest : Unbroken (strings value ++ stringsEntries entries) := fun s hmem => hs s (List.mem_cons_of_mem _ hmem)
    have hvalue := spreads_value hdouble value _ h.right.left hrest.append.1
    have hentries := spreads_entries hdouble entries false _ h.right.right hrest.append.2
    have hflatten : front ++ key ++ (strings value).flatten ++ (stringsEntries entries).flatten =
        front ++ (stringsEntries ((key, value) :: entries)).flatten := by
      simp [stringsEntries]
    rw [hflatten] at hentries
    rw [JSON.writeEntries]
    exact ((((spreads_comma _ first).append hkey).append
      (.interior (interior_of_all rfl))).append hvalue).append hentries

end

/-- An object has no white space around it. -/
theorem work_eq (entries : List (Text × JSON D)) :
    work numberToString entries = JSON.toJSONString numberToString (.object entries) := by
  unfold work trim JSON.toJSONString JSON.writeJSONString
  simp only [List.cons_append]
  rw [List.dropWhile_cons_of_neg (by decide), ← List.cons_append,
    List.rdropWhile_concat_neg _ _ _ (by decide)]

end Texts

/-! ## Ending, and the same value -/

/-- **The pretty text:** an even number of quotes in the strings lets the loop end; if they shelter the braces
and commas, and no backslash is in front of an `n`, only white space and the slashes and line breaks of the
strings differ, and the text is parsed to the same value. -/
theorem JSONPretty_spaced (F : DoubleLibrary) (hdouble : ∀ d, ∀ c ∈ F.numberToString d, Interior c ∧ c ≠ 92)
    (entries : List (Text × JSON F.Double)) (heven : Even ((stringsEntries entries).flatten.count 34)) :
    ∃ least out, (∀ turns, least ≤ turns → JSONPretty F.numberToString turns entries = some out) ∧
      (Sheltered [] (stringsEntries entries).flatten → Unbroken (stringsEntries entries) →
        Spaced (JSON.toJSONString F.numberToString (.object entries)) out ∧
          ∀ value, JSONParser.parse F (JSON.toJSONString F.numberToString (.object entries)) = .ok value →
            out.length ≤ JSONParser.MAX_INPUT_SIZE → JSONParser.parse F out = .ok value) := by
  have hquotes : Even ((JSON.toJSONString F.numberToString (.object entries)).count 34) := by
    have hodd := odd_writeJSONString F.numberToString hdouble (.object entries)
    rw [strings] at hodd
    unfold odd at hodd
    rw [JSON.toJSONString, Nat.even_iff]
    rw [decide_eq_decide] at hodd
    rw [Nat.even_iff] at heven
    omega
  obtain ⟨least, hleast⟩ := loop_spread [] _ 0 [] hquotes
  refine ⟨least, cleanUp (spread false 0 (JSON.toJSONString F.numberToString (.object entries))),
    fun turns hturns => ?_, fun hsheltered hunbroken => ?_⟩
  · rw [JSONPretty, work_eq]
    have hloop := loop_mono hleast hturns
    simp only [List.nil_append, List.length_nil] at hloop
    rw [hloop, Option.map_some]
  · obtain ⟨tabs', y, hy, hspaced⟩ :=
      spreads_value F.numberToString hdouble (.object entries) [] hsheltered hunbroken 0
    have hout : cleanUp (spread false 0 (JSON.toJSONString F.numberToString (.object entries))) = y := by
      have hnil := hy []
      rw [List.append_nil] at hnil
      rw [JSON.toJSONString]
      refine Eq.trans hnil ?_
      simp [spread, cleanUp, replaceAllInPlace, replaceFrom]
    have hsame : Spaced (JSON.toJSONString F.numberToString (.object entries)) y := by
      have hnil := hspaced [] [] .nil
      rwa [List.append_nil, List.append_nil] at hnil
    rw [hout]
    refine ⟨hsame, fun value hvalue hlength => ?_⟩
    have hshort : (JSON.toJSONString F.numberToString (.object entries)).length ≤ JSONParser.MAX_INPUT_SIZE := by
      by_contra hlong
      rw [JSONParser.parse, if_pos (not_le.mp hlong)] at hvalue
      cases hvalue
    rw [← JSONParser.parse_spaced F hsame hshort hlength, hvalue]

theorem JSONPretty_spaced_quotes :
    ∃ least out, (∀ turns, least ≤ turns →
        JSONPretty noDoubles.numberToString turns [([97], .string (ascii "1,\"2\"\x7d/"))] = some out) ∧
      Spaced (JSON.toJSONString noDoubles.numberToString
        (.object [([97], .string (ascii "1,\"2\"\x7d/"))])) out := by
  obtain ⟨least, out, hout, hsame⟩ := JSONPretty_spaced noDoubles (fun d => nomatch d)
    [([97], .string (ascii "1,\"2\"\x7d/"))] (by decide)
  exact ⟨least, out, hout, (hsame (by decide) (by simp [Unbroken, stringsEntries, strings]; decide)).1⟩

/-- **A string of one quote** keeps the loop going for ever, and between two quotes a comma of a string is
taken for one of the object. -/
theorem JSONPretty_quote :
    (∀ turns, JSONPretty noDoubles.numberToString turns [([97], .string [34])] = none) ∧
      JSONPretty noDoubles.numberToString 10 [([97], .string (ascii "\",\""))] =
        some (ascii "\x7b\n  \"a\":\"\\\",\n  \\\"\"\n\x7d") := by
  refine ⟨fun turns => ?_, by rfl⟩
  have hodd : Odd ((work noDoubles.numberToString [([97], .string [34])]).count 34) := by decide
  have hloop := @loop_odd _ hodd turns [] _ rfl hodd 0 []
  rw [List.length_nil] at hloop
  rw [JSONPretty, hloop, Option.map_none]

end MiniFormat

end Minima
