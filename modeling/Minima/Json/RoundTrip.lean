import Minima.Json.Tokens

/-! # Written and parsed again

A value that is written and parsed comes back as `decoded`: the strings as the scanner returns them, all
else as it was, if the containers do not nest too deep and the integers are in the range of `long long`;
otherwise the parser throws.

* **`JSONParser.parseLoop_value`** — a value inside a container.
* **`JSONParser.parse_toJSONString`** — a whole text.
* **`JSONParser.roundTrip_iff`** — the values that come back as they were. -/

namespace Minima

open MiniNumber (ascii digitsText)

namespace JSON

variable {D : Type}

/-! ## What comes back -/

mutual

/-- The value with its strings and keys as they come back. -/
def decoded : JSON D → JSON D
  | .null => .null
  | .bool b => .bool b
  | .long v => .long v
  | .double d => .double d
  | .string s => .string (Yylex.decode s)
  | .array elements => .array (decodedElements elements)
  | .object entries => .object (decodedEntries entries)

/-- The elements of an array. -/
def decodedElements : List (JSON D) → List (JSON D)
  | [] => []
  | val :: vals => decoded val :: decodedElements vals

/-- The entries of an object. -/
def decodedEntries : List (Text × JSON D) → List (Text × JSON D)
  | [] => []
  | (key, value) :: entries => (Yylex.decode key, decoded value) :: decodedEntries entries

end

mutual

/-- With so many containers open around it, the value nests no deeper than the parser allows, and its
integers are in the range of `long long`. -/
def Fits (depth : ℕ) : JSON D → Prop
  | .long v => -2 ^ 63 ≤ v ∧ v < 2 ^ 63
  | .array elements => depth < JSONParser.MAX_JSON_DEPTH ∧ FitsElements (depth + 1) elements
  | .object entries => depth < JSONParser.MAX_JSON_DEPTH ∧ FitsEntries (depth + 1) entries
  | _ => True

/-- All elements of an array. -/
def FitsElements (depth : ℕ) : List (JSON D) → Prop
  | [] => True
  | val :: vals => Fits depth val ∧ FitsElements depth vals

/-- All values of an object. -/
def FitsEntries (depth : ℕ) : List (Text × JSON D) → Prop
  | [] => True
  | (_, value) :: entries => Fits depth value ∧ FitsEntries depth entries

end

mutual

/-- The strings and keys hold no byte from `0x80` to `0x9F`. -/
def Plain : JSON D → Prop
  | .string s => Yylex.Plain s
  | .array elements => PlainElements elements
  | .object entries => PlainEntries entries
  | _ => True

/-- All elements of an array. -/
def PlainElements : List (JSON D) → Prop
  | [] => True
  | val :: vals => Plain val ∧ PlainElements vals

/-- All keys and values of an object. -/
def PlainEntries : List (Text × JSON D) → Prop
  | [] => True
  | (key, value) :: entries => Yylex.Plain key ∧ Plain value ∧ PlainEntries entries

end

/-- The number of bytes for a byte of a string: two for the escapes with a letter, six for the other control
characters, and one for the rest. -/
def charSize (ch : Byte) : ℕ :=
  if ch ∈ ([34, 92, 8, 12, 10, 13, 9, 47] : List Byte) then 2
  else if ch ≤ 0x1F ∨ (0x7F ≤ ch ∧ ch ≤ 0x9F) then 6
  else 1

/-- A string with its quotes. -/
def stringSize (s : Text) : ℕ := 2 + (s.map charSize).sum

/-- The digits of a number and its sign. -/
def integerSize (v : ℤ) : ℕ := (if v < 0 then 1 else 0) + (Nat.log 10 v.natAbs + 1)

theorem length_escapeByte (ch : Byte) : (escapeByte ch).length = charSize ch := by
  unfold escapeByte
  split
  case h_9 hquote hslash hb hf hn hr ht hsolidus =>
    have hplain : ch ∉ ([34, 92, 8, 12, 10, 13, 9, 47] : List Byte) := by
      simp only [List.mem_cons, List.not_mem_nil, or_false]
      tauto
    rw [charSize, if_neg hplain]
    split_ifs <;> simp [ascii]
  all_goals rfl

theorem length_writeQuotedEscaped (s : Text) : (writeQuotedEscaped s).length = stringSize s := by
  have hsizes : (s.map fun ch => (escapeByte ch).length) = s.map charSize :=
    List.map_congr_left fun ch _ => length_escapeByte ch
  rw [writeQuotedEscaped, List.length_append, List.length_append, escape, List.length_flatMap, hsizes, stringSize]
  simp only [ascii, String.toList, List.length_map]
  show 1 + (s.map charSize).sum + 1 = 2 + (s.map charSize).sum
  omega

theorem length_integerToString (v : ℤ) : (integerToString v).length = integerSize v := by
  have hdigits : (digitsText v.natAbs).length = Nat.log 10 v.natAbs + 1 := by
    rw [digitsText, List.length_map]
    apply le_antisymm
    · exact (Nat.length_toDigits_le_iff (by norm_num) (Nat.succ_pos _)).mpr
        (Nat.lt_pow_succ_log_self (by norm_num) _)
    · have hpos : 0 < (Nat.toDigits 10 v.natAbs).length := Nat.length_toDigits_pos
      exact Nat.log_lt_of_lt_pow' hpos.ne' ((Nat.length_toDigits_le_iff (by norm_num) hpos).mp le_rfl)
  unfold integerToString integerSize
  split_ifs
  · rw [List.length_cons, hdigits]
    omega
  · rw [hdigits]
    omega

mutual

/-- The number of bytes that a value is written with, if there are no floating point numbers. -/
def textSize : JSON D → ℕ
  | .null => 4
  | .bool b => if b then 4 else 5
  | .long v => integerSize v
  | .double _ => 0
  | .string s => stringSize s
  | .array elements => 2 + textSizeElements true elements
  | .object entries => 2 + textSizeEntries true entries

/-- The elements of an array, with their commas. -/
def textSizeElements (first : Bool) : List (JSON D) → ℕ
  | [] => 0
  | val :: vals => (if first then 0 else 1) + textSize val + textSizeElements false vals

/-- The entries of an object, with their commas and colons. -/
def textSizeEntries (first : Bool) : List (Text × JSON D) → ℕ
  | [] => 0
  | (key, value) :: entries =>
    (if first then 0 else 1) + stringSize key + 1 + textSize value +
      textSizeEntries false entries

end

mutual

theorem length_writeJSONString (numberToString : D → Text) : ∀ v : JSON D, v.WellFormed →
    (writeJSONString numberToString v).length = textSize v
  | .null, _ => by simp [writeJSONString, textSize, ascii]
  | .bool true, _ => by simp [writeJSONString, textSize, ascii]
  | .bool false, _ => by simp [writeJSONString, textSize, ascii]
  | .long v, _ => by rw [writeJSONString, textSize, length_integerToString]
  | .double d, h => absurd h (by simp [WellFormed])
  | .string s, _ => by rw [writeJSONString, textSize, length_writeQuotedEscaped]
  | .array elements, h => by
    rw [writeJSONString, textSize, List.length_append, List.length_append,
      length_writeElements numberToString elements true h]
    simp [ascii]
    omega
  | .object entries, h => by
    rw [writeJSONString, textSize, List.length_append, List.length_append,
      length_writeEntries numberToString entries true h.2]
    simp
    omega

theorem length_writeElements (numberToString : D → Text) : ∀ (vals : List (JSON D)) (first : Bool),
    WellFormedElements vals → (writeElements numberToString first vals).length = textSizeElements first vals
  | [], first, _ => by simp [writeElements, textSizeElements]
  | val :: vals, first, h => by
    rw [writeElements, textSizeElements, List.length_append, List.length_append,
      length_writeJSONString numberToString val h.1, length_writeElements numberToString vals false h.2]
    cases first <;> simp [ascii]

theorem length_writeEntries (numberToString : D → Text) : ∀ (entries : List (Text × JSON D)) (first : Bool),
    WellFormedEntries entries →
    (writeEntries numberToString first entries).length = textSizeEntries first entries
  | [], first, _ => by simp [writeEntries, textSizeEntries]
  | (key, value) :: entries, first, h => by
    rw [writeEntries, textSizeEntries, List.length_append, List.length_append, List.length_append,
      List.length_append, length_writeQuotedEscaped, length_writeJSONString numberToString value h.1,
      length_writeEntries numberToString entries false h.2]
    cases first <;> simp [ascii]

end

theorem keys_decodedEntries (entries : List (Text × JSON D)) :
    (decodedEntries entries).map Prod.fst = (entries.map Prod.fst).map Yylex.decode := by
  induction entries with
  | nil => rfl
  | cons entry entries ih =>
    rw [decodedEntries, List.map_cons, List.map_cons, List.map_cons, ih]

mutual

/-- **A value comes back as it was** exactly when its strings and keys are plain. -/
theorem decoded_eq_self_iff : ∀ v : JSON D, decoded v = v ↔ Plain v
  | .null => by simp [decoded, Plain]
  | .bool b => by simp [decoded, Plain]
  | .long v => by simp [decoded, Plain]
  | .double d => by simp [decoded, Plain]
  | .string s => by simp [decoded, Plain, Yylex.decode_eq_self_iff]
  | .array elements => by
    rw [decoded, Plain, JSON.array.injEq]
    exact decodedElements_eq_self_iff elements
  | .object entries => by
    rw [decoded, Plain, JSON.object.injEq]
    exact decodedEntries_eq_self_iff entries

theorem decodedElements_eq_self_iff : ∀ vals : List (JSON D), decodedElements vals = vals ↔ PlainElements vals
  | [] => by simp [decodedElements, PlainElements]
  | val :: vals => by
    rw [decodedElements, PlainElements, List.cons.injEq, decoded_eq_self_iff val,
      decodedElements_eq_self_iff vals]

theorem decodedEntries_eq_self_iff : ∀ entries : List (Text × JSON D),
    decodedEntries entries = entries ↔ PlainEntries entries
  | [] => by simp [decodedEntries, PlainEntries]
  | (key, value) :: entries => by
    rw [decodedEntries, PlainEntries, List.cons.injEq, Prod.mk.injEq, Yylex.decode_eq_self_iff,
      decoded_eq_self_iff value, decodedEntries_eq_self_iff entries, and_assoc]

end

end JSON

namespace JSONParser

variable {F : DoubleLibrary} {D : Type}

/-! ## The loop on a token -/

/-- A token is the parser's next step. -/
theorem parseLoop_some {p : State F.Double} {y y' : Yylex} {token : Yytoken F.Double}
    (hlex : Yylex.yylex F y = .ok (some token, y')) :
    parseLoop F p y = match step p token with
      | .error e => .error e
      | .ok p' =>
        if p'.m_status = .S_IN_ERROR then throwException "Unexpected token " else parseLoop F p' y' := by
  rw [parseLoop]
  split
  · next e h => simp [hlex] at h
  · next y'' h => simp [hlex] at h
  · next token' y'' h =>
    obtain ⟨rfl, rfl⟩ : token = token' ∧ y' = y'' := by simpa [hlex] using h
    rfl

/-- A token that the parser takes. -/
theorem parseLoop_token {p p' : State F.Double} {y y' : Yylex} {token : Yytoken F.Double}
    (hlex : Yylex.yylex F y = .ok (some token, y')) (hstep : step p token = .ok p')
    (hstatus : p'.m_status ≠ .S_IN_ERROR) : parseLoop F p y = parseLoop F p' y' := by
  rw [parseLoop_some hlex, hstep]
  exact if_neg hstatus

/-- A token that the parser throws on. -/
theorem parseLoop_throws {p : State F.Double} {y y' : Yylex} {token : Yytoken F.Double} {e : Fault}
    (hlex : Yylex.yylex F y = .ok (some token, y')) (hstep : step p token = .error e) :
    parseLoop F p y = .error e := by
  rw [parseLoop_some hlex, hstep]

/-- A text that the scanner throws on. -/
theorem parseLoop_lexThrows {p : State F.Double} {y : Yylex} {e : Fault}
    (hlex : Yylex.yylex F y = .error e) : parseLoop F p y = .error e := by
  rw [parseLoop]
  split
  · next e' h =>
    rw [hlex] at h
    rw [Except.error.inj h]
  · next y'' h => simp [hlex] at h
  · next token' y'' h => simp [hlex] at h

theorem parseLoop_end (p : State F.Double) (sb : Text) :
    parseLoop F p ⟨[], .YYINITIAL, sb⟩ = finish p := by
  have hlex := Yylex.yylex_end F sb
  rw [parseLoop]
  split
  · next e h => simp [hlex] at h
  · next => rfl
  · next token' y'' h => simp [hlex] at h

/-! ## A place for a value -/

/-- Where a value goes inside a container: behind the elements of an array, or under a key of an
object. -/
inductive Place (D : Type) where
  | element (slot : Option Text) (elements : List (JSON D))
  | member (slot : Option Text) (entries : List (Text × JSON D)) (key : Text)

namespace Place

/-- The status of the container. -/
def status : Place D → Status
  | .element _ _ => .S_IN_ARRAY
  | .member _ _ _ => .S_IN_OBJECT

/-- The container on the value stack. -/
def frame : Place D → StackValue D
  | .element slot elements => .array slot elements
  | .member slot entries _ => .object slot entries

/-- The key that a value is put under. -/
def slot : Place D → Option Text
  | .element _ _ => none
  | .member _ _ key => some key

/-- The container with a value in the place. -/
def fill (v : JSON D) : Place D → StackValue D
  | .element slot elements => .array slot (elements ++ [v])
  | .member slot entries key => .object slot (JSON.put entries key v)

variable (place : Place D) (statuses : List Status) (stack : List (StackValue D))

/-- The parser before the value. -/
def ready : State D :=
  match place with
  | .element _ _ => ⟨.S_IN_ARRAY, place.status :: statuses, place.frame :: stack⟩
  | .member _ _ key =>
    ⟨.S_PASSED_PAIR_KEY, .S_PASSED_PAIR_KEY :: place.status :: statuses, .key key :: place.frame :: stack⟩

/-- The parser behind the value. -/
def filled (v : JSON D) : State D := ⟨place.status, place.status :: statuses, place.fill v :: stack⟩

theorem status_ne_error : place.status ≠ .S_IN_ERROR := by cases place <;> simp [status]

theorem step_value (v : Yytoken.Value D) :
    step (place.ready statuses stack) (.value v) = .ok (place.filled statuses stack (tokenValueToAny v)) := by
  cases place <;> rfl

theorem step_leftSquare : step (place.ready statuses stack) .leftSquare =
    push .S_IN_ARRAY (.array place.slot []) (place.status :: statuses) (place.frame :: stack) := by
  cases place <;> rfl

theorem step_leftBrace : step (place.ready statuses stack) .leftBrace =
    push .S_IN_OBJECT (.object place.slot []) (place.status :: statuses) (place.frame :: stack) := by
  cases place <;> rfl

/-- **A closed container fills its place.** -/
theorem close_eq {top : StackValue D} {v : JSON D} (h : container top = some (place.slot, v))
    (m_status status : Status) :
    close ⟨m_status, status :: place.status :: statuses, top :: place.frame :: stack⟩ =
      .ok (place.filled statuses stack v) := by
  cases place <;> simp only [close, h] <;> rfl

end Place

/-! ## What the loop does with a piece of a text -/

/-- With the text in front of it, the loop gets to the other state if the condition holds, and throws
if not. -/
def Takes (F : DoubleLibrary) (p : State F.Double) (w rest : Text) (fits : Prop) (p' : State F.Double) : Prop :=
  ∀ sb,
    (fits → ∃ sb', parseLoop F p ⟨w ++ rest, .YYINITIAL, sb⟩ = parseLoop F p' ⟨rest, .YYINITIAL, sb'⟩) ∧
      (¬ fits → ∃ e, parseLoop F p ⟨w ++ rest, .YYINITIAL, sb⟩ = .error e)

namespace Takes

variable {p p' p'' : State F.Double} {w w' rest : Text} {fits fits' : Prop}

theorem nil : Takes F p [] rest True p := fun sb => ⟨fun _ => ⟨sb, rfl⟩, fun h => absurd trivial h⟩

/-- **One piece after the other.** -/
theorem append (h : Takes F p w (w' ++ rest) fits p') (h' : Takes F p' w' rest fits' p'') :
    Takes F p (w ++ w') rest (fits ∧ fits') p'' := by
  intro sb
  rw [List.append_assoc]
  obtain ⟨hfits, hthrows⟩ := h sb
  refine ⟨fun hf => ?_, fun hf => ?_⟩
  · obtain ⟨sb1, h1⟩ := hfits hf.1
    obtain ⟨sb2, h2⟩ := (h' sb1).1 hf.2
    exact ⟨sb2, h1.trans h2⟩
  · by_cases hf1 : fits
    · obtain ⟨sb1, h1⟩ := hfits hf1
      obtain ⟨e, he⟩ := (h' sb1).2 fun hf2 => hf ⟨hf1, hf2⟩
      exact ⟨e, h1.trans he⟩
    · exact hthrows hf1

theorem congr (h : Takes F p w rest fits p') (hiff : fits ↔ fits') : Takes F p w rest fits' p' := by
  rwa [propext hiff] at h

/-- **A piece that is one token.** -/
theorem token {token : Yytoken F.Double}
    (hlex : ∀ sb, ∃ sb', Yylex.yylex F ⟨w ++ rest, .YYINITIAL, sb⟩ = .ok (some token, ⟨rest, .YYINITIAL, sb'⟩))
    (hstep : fits → step p token = .ok p' ∧ p'.m_status ≠ .S_IN_ERROR)
    (hthrows : ¬ fits → ∃ e, step p token = .error e) : Takes F p w rest fits p' := by
  intro sb
  obtain ⟨sb', hlex⟩ := hlex sb
  refine ⟨fun hf => ⟨sb', ?_⟩, fun hf => ?_⟩
  · exact parseLoop_token hlex (hstep hf).1 (hstep hf).2
  · obtain ⟨e, he⟩ := hthrows hf
    exact ⟨e, parseLoop_throws hlex he⟩

/-- A piece that is one token, which the parser takes. -/
theorem word {state : ℕ} {token : Yytoken F.Double}
    (hreaches : Scanner.reaches Yylex.tables 0 w = some state)
    (hact : ∀ sb, Yylex.act F (Yylex.unpacked Yylex.ZZ_ACTION_PACKED_0 state) w .YYINITIAL sb =
      .ok (some token, .YYINITIAL, sb))
    (hstep : step p token = .ok p') (hstatus : p'.m_status ≠ .S_IN_ERROR) : Takes F p w rest True p' :=
  Takes.token (fun sb => ⟨sb, Yylex.yylex_word F hreaches hact rest sb⟩) (fun _ => ⟨hstep, hstatus⟩)
    fun h => absurd trivial h

end Takes

/-! ## Values in their places -/

section Values

variable (place : Place F.Double) (statuses : List Status) (stack : List (StackValue F.Double))
  {rest : Text}

/-- The brackets of an array, each one token. -/
theorem takes_leftSquare : Takes F (place.ready statuses stack) (ascii "[") rest
    (statuses.length + 1 < MAX_JSON_DEPTH)
    ((Place.element place.slot []).ready (place.status :: statuses) (place.frame :: stack)) := by
  refine Takes.token (fun sb => ⟨sb, @Yylex.yylex_word F _ 12 _ (Yylex.reaches_word (by simp [Yylex.words])) (fun _ => rfl) rest sb⟩)
    (fun h => ⟨?_, by simp [Place.ready]⟩) fun h => ?_
  · rw [Place.step_leftSquare, push, List.length_cons, if_neg (by omega)]
    rfl
  · rw [Place.step_leftSquare, push, List.length_cons, if_pos (by omega)]
    exact ⟨_, rfl⟩

theorem takes_leftBrace : Takes F (place.ready statuses stack) [123] rest
    (statuses.length + 1 < MAX_JSON_DEPTH)
    ⟨.S_IN_OBJECT, .S_IN_OBJECT :: place.status :: statuses, .object place.slot [] :: place.frame :: stack⟩ := by
  refine Takes.token (fun sb => ⟨sb, @Yylex.yylex_word F _ 10 _ (Yylex.reaches_word (by simp [Yylex.words])) (fun _ => rfl) rest sb⟩)
    (fun h => ⟨?_, by simp⟩) fun h => ?_
  · rw [Place.step_leftBrace, push, List.length_cons, if_neg (by omega)]
  · rw [Place.step_leftBrace, push, List.length_cons, if_pos (by omega)]
    exact ⟨_, rfl⟩

theorem takes_rightSquare (elements : List (JSON F.Double)) :
    Takes F ((Place.element place.slot elements).ready (place.status :: statuses) (place.frame :: stack))
      (ascii "]") rest True (place.filled statuses stack (.array elements)) :=
  @Takes.word F _ _ _ _ 13 .rightSquare (Yylex.reaches_word (by simp [Yylex.words])) (fun _ => rfl)
    (@Place.close_eq _ place statuses stack (.array place.slot elements) _ rfl .S_IN_ARRAY .S_IN_ARRAY)
    place.status_ne_error

theorem takes_rightBrace (entries : List (Text × JSON F.Double)) :
    Takes F ⟨.S_IN_OBJECT, .S_IN_OBJECT :: place.status :: statuses,
      .object place.slot entries :: place.frame :: stack⟩ [125] rest True
      (place.filled statuses stack (.object entries)) :=
  @Takes.word F _ _ _ _ 11 .rightBrace (Yylex.reaches_word (by simp [Yylex.words])) (fun _ => rfl)
    (@Place.close_eq _ place statuses stack (.object place.slot entries) _ rfl .S_IN_OBJECT .S_IN_OBJECT)
    place.status_ne_error

/-- The comma in front of all but the first. -/
theorem takes_comma {p : State F.Double} (first : Bool) (hstep : step p .comma = .ok p)
    (hstatus : p.m_status ≠ .S_IN_ERROR) : Takes F p (if first then [] else ascii ",") rest True p := by
  cases first with
  | true => exact Takes.nil
  | false => exact @Takes.word F _ _ _ _ 14 .comma (Yylex.reaches_word (by simp [Yylex.words])) (fun _ => rfl) hstep hstatus

/-- A value that is one word. -/
theorem takes_scalar {w : Text} {state : ℕ} {v : Yytoken.Value F.Double}
    (hreaches : Scanner.reaches Yylex.tables 0 w = some state)
    (hact : ∀ sb, Yylex.act F (Yylex.unpacked Yylex.ZZ_ACTION_PACKED_0 state) w .YYINITIAL sb =
      .ok (some (.value v), .YYINITIAL, sb)) :
    Takes F (place.ready statuses stack) w rest True (place.filled statuses stack (tokenValueToAny v)) :=
  Takes.word hreaches hact (place.step_value statuses stack v) place.status_ne_error

/-- An integer. -/
theorem takes_long (v : ℤ) (hends : Yylex.Ends rest) :
    Takes F (place.ready statuses stack) (JSON.integerToString v) rest (-2 ^ 63 ≤ v ∧ v < 2 ^ 63)
      (place.filled statuses stack (.long v)) := by
  intro sb
  have hlex := Yylex.yylex_long F v hends sb
  refine ⟨fun h => ⟨sb, ?_⟩, fun h => ?_⟩
  · rw [if_pos h] at hlex
    exact parseLoop_token hlex (place.step_value statuses stack (.long v)) place.status_ne_error
  · rw [if_neg h] at hlex
    exact ⟨_, parseLoop_lexThrows hlex⟩

/-- A string. -/
theorem takes_string (s : Text) :
    Takes F (place.ready statuses stack) (JSON.writeQuotedEscaped s) rest True
      (place.filled statuses stack (.string (Yylex.decode s))) :=
  Takes.token (fun sb => ⟨_, Yylex.yylex_string F s rest sb⟩)
    (fun _ => ⟨place.step_value statuses stack (.string (Yylex.decode s)), place.status_ne_error⟩)
    fun h => absurd trivial h

/-- A key and its colon. -/
theorem takes_key (slot : Option Text) (acc : List (Text × JSON F.Double)) (key : Text) :
    Takes F ⟨.S_IN_OBJECT, .S_IN_OBJECT :: statuses, .object slot acc :: stack⟩
      (JSON.writeQuotedEscaped key ++ ascii ":") rest True
      ((Place.member slot acc (Yylex.decode key)).ready statuses stack) := by
  have hkey : ∀ rest, Takes F ⟨.S_IN_OBJECT, .S_IN_OBJECT :: statuses, .object slot acc :: stack⟩
      (JSON.writeQuotedEscaped key) rest True
      ((Place.member slot acc (Yylex.decode key)).ready statuses stack) := fun rest =>
    Takes.token (fun sb => ⟨_, Yylex.yylex_string F key rest sb⟩) (fun _ => ⟨rfl, by simp [Place.ready]⟩)
      fun h => absurd trivial h
  have hcolon : Takes F ((Place.member slot acc (Yylex.decode key)).ready statuses stack) (ascii ":") rest
      True ((Place.member slot acc (Yylex.decode key)).ready statuses stack) :=
    @Takes.word F _ _ _ _ 15 .colon (Yylex.reaches_word (by simp [Yylex.words])) (fun _ => rfl) rfl (by simp [Place.ready])
  exact ((hkey _).append hcolon).congr (by simp)

end Values

/-- What comes behind a value ends a number. -/
theorem ends_elements {D : Type} (numberToString : D → Text) (vals : List (JSON D)) {rest : Text}
    (h : Yylex.Ends rest) : Yylex.Ends (JSON.writeElements numberToString false vals ++ rest) := by
  cases vals with
  | nil => exact h
  | cons val vals =>
    intro b hb
    obtain rfl : 44 = b := by simpa [JSON.writeElements, ascii] using hb
    exact .inl rfl

theorem ends_entries {D : Type} (numberToString : D → Text) (entries : List (Text × JSON D)) {rest : Text}
    (h : Yylex.Ends rest) : Yylex.Ends (JSON.writeEntries numberToString false entries ++ rest) := by
  cases entries with
  | nil => exact h
  | cons entry entries =>
    intro b hb
    obtain rfl : 44 = b := by simpa [JSON.writeEntries, ascii] using hb
    exact .inl rfl

mutual

/-- **A value inside a container**: it fills its place as it comes back, if it fits. -/
theorem takes_value : ∀ (v : JSON F.Double), v.WellFormed → ∀ (place : Place F.Double)
    (statuses : List Status) (stack : List (StackValue F.Double)) {rest : Text}, Yylex.Ends rest →
    Takes F (place.ready statuses stack) (JSON.writeJSONString F.numberToString v) rest
      (v.Fits (statuses.length + 1)) (place.filled statuses stack v.decoded)
  | .null, _, place, statuses, stack, rest, _ => by
    exact @takes_scalar F place statuses stack rest (ascii "null") 40 .null (Yylex.reaches_word (by simp [Yylex.words])) fun _ => rfl
  | .bool true, _, place, statuses, stack, rest, _ => by
    exact @takes_scalar F place statuses stack rest (ascii "true") 41 (.bool true) (Yylex.reaches_word (by simp [Yylex.words]))
      fun _ => rfl
  | .bool false, _, place, statuses, stack, rest, _ => by
    exact @takes_scalar F place statuses stack rest (ascii "false") 41 (.bool false) (Yylex.reaches_word (by simp [Yylex.words]))
      fun _ => rfl
  | .long v, _, place, statuses, stack, rest, hends => takes_long place statuses stack v hends
  | .double d, h, _, _, _, _, _ => absurd h (by simp [JSON.WellFormed])
  | .string s, _, place, statuses, stack, rest, _ => takes_string place statuses stack s
  | .array elements, h, place, statuses, stack, rest, _ => by
    have hends : Yylex.Ends (ascii "]" ++ rest) := fun b hb => by
      obtain rfl : 93 = b := by simpa [ascii] using hb
      exact .inr (.inl rfl)
    have hin := takes_elements elements h true place.slot [] (place.status :: statuses)
      (place.frame :: stack) hends
    rw [List.nil_append] at hin
    rw [JSON.writeJSONString, JSON.decoded]
    refine Takes.congr (((takes_leftSquare place statuses stack).append hin).append
      (takes_rightSquare place statuses stack _)) ?_
    rw [and_true, List.length_cons, JSON.Fits]
  | .object entries, h, place, statuses, stack, rest, _ => by
    have hends : Yylex.Ends ([125] ++ rest) := fun b hb => by
      obtain rfl : 125 = b := by simpa using hb
      exact .inr (.inr rfl)
    have hkeys : (([] ++ JSON.decodedEntries entries).map Prod.fst).Nodup := by
      rw [List.nil_append, JSON.keys_decodedEntries]
      exact h.1.map Yylex.decode_injective
    have hin := takes_entries entries h.2 true place.slot [] (place.status :: statuses)
      (place.frame :: stack) hends hkeys
    rw [List.nil_append] at hin
    rw [JSON.writeJSONString, JSON.decoded]
    refine Takes.congr (((takes_leftBrace place statuses stack).append hin).append
      (takes_rightBrace place statuses stack _)) ?_
    rw [and_true, List.length_cons, JSON.Fits]

/-- The elements of an array. -/
theorem takes_elements : ∀ (vals : List (JSON F.Double)), JSON.WellFormedElements vals → ∀ (first : Bool)
    (slot : Option Text) (acc : List (JSON F.Double)) (statuses : List Status)
    (stack : List (StackValue F.Double)) {rest : Text}, Yylex.Ends rest →
    Takes F ((Place.element slot acc).ready statuses stack)
      (JSON.writeElements F.numberToString first vals) rest
      (JSON.FitsElements (statuses.length + 1) vals)
      ((Place.element slot (acc ++ JSON.decodedElements vals)).ready statuses stack)
  | [], _, first, slot, acc, statuses, stack, rest, _ => by
    rw [JSON.decodedElements, List.append_nil]
    exact Takes.nil
  | val :: vals, h, first, slot, acc, statuses, stack, rest, hends => by
    have hval := takes_value val h.1 (.element slot acc) statuses stack
      (ends_elements F.numberToString vals hends)
    have hvals := takes_elements vals h.2 false slot (acc ++ [val.decoded]) statuses stack hends
    rw [List.append_assoc, List.singleton_append] at hvals
    rw [JSON.writeElements, JSON.decodedElements]
    refine Takes.congr (((takes_comma first rfl (by simp [Place.ready])).append hval).append hvals) ?_
    rw [true_and, JSON.FitsElements]

/-- The entries of an object. -/
theorem takes_entries : ∀ (entries : List (Text × JSON F.Double)), JSON.WellFormedEntries entries →
    ∀ (first : Bool) (slot : Option Text) (acc : List (Text × JSON F.Double)) (statuses : List Status)
    (stack : List (StackValue F.Double)) {rest : Text}, Yylex.Ends rest →
    ((acc ++ JSON.decodedEntries entries).map Prod.fst).Nodup →
    Takes F ⟨.S_IN_OBJECT, .S_IN_OBJECT :: statuses, .object slot acc :: stack⟩
      (JSON.writeEntries F.numberToString first entries) rest
      (JSON.FitsEntries (statuses.length + 1) entries)
      ⟨.S_IN_OBJECT, .S_IN_OBJECT :: statuses,
        .object slot (acc ++ JSON.decodedEntries entries) :: stack⟩
  | [], _, first, slot, acc, statuses, stack, rest, _, _ => by
    rw [JSON.decodedEntries, List.append_nil]
    exact Takes.nil
  | (key, value) :: entries, h, first, slot, acc, statuses, stack, rest, hends, hnodup => by
    have hkey : Yylex.decode key ∉ acc.map Prod.fst := by
      rw [JSON.decodedEntries, List.map_append, List.map_cons] at hnodup
      exact fun hmem => (List.disjoint_of_nodup_append hnodup) hmem (List.mem_cons_self ..)
    have hval := takes_value value h.1 (.member slot acc (Yylex.decode key)) statuses stack
      (ends_entries F.numberToString entries hends)
    have hfilled : (Place.member slot acc (Yylex.decode key)).filled statuses stack value.decoded =
        ⟨.S_IN_OBJECT, .S_IN_OBJECT :: statuses,
          .object slot (acc ++ [(Yylex.decode key, value.decoded)]) :: stack⟩ := by
      rw [Place.filled, Place.fill, JSON.put_of_notMem hkey]
      rfl
    have hentries := takes_entries entries h.2 false slot (acc ++ [(Yylex.decode key, value.decoded)]) statuses
      stack hends (by rwa [List.append_assoc])
    rw [List.append_assoc, List.singleton_append] at hentries
    rw [hfilled] at hval
    rw [JSON.writeEntries, JSON.decodedEntries, List.append_assoc _ _ (ascii ":")]
    refine Takes.congr ((((takes_comma first rfl (by simp)).append
      (takes_key statuses stack slot acc key)).append hval).append hentries) ?_
    rw [true_and, true_and, JSON.FitsEntries]

end

/-! ## Whole texts -/

/-- The parser before a text. -/
def start (F : DoubleLibrary) : State F.Double := ⟨.S_INIT, [], []⟩

/-- A value that is one token, at the start of a text. -/
theorem takes_first {w rest : Text} {v : Yytoken.Value F.Double}
    (hlex : ∀ sb, ∃ sb', Yylex.yylex F ⟨w ++ rest, .YYINITIAL, sb⟩ =
      .ok (some (.value v), ⟨rest, .YYINITIAL, sb'⟩)) :
    Takes F (start F) w rest True ⟨.S_IN_FINISHED_VALUE, [.S_IN_FINISHED_VALUE], [.value (tokenValueToAny v)]⟩ :=
  Takes.token hlex (fun _ => ⟨rfl, by simp⟩) fun h => absurd trivial h

/-- **The value of a text** is what the parser is left with at its end. -/
theorem exists_takes (v : JSON F.Double) (h : v.WellFormed) : ∃ p : State F.Double,
    finish p = .ok v.decoded ∧ Takes F (start F) (v.toJSONString F.numberToString) [] (v.Fits 0) p := by
  have hends : Yylex.Ends [] := fun b hb => by simp at hb
  cases v with
  | null =>
    exact ⟨_, rfl, takes_first fun sb => ⟨sb,
      @Yylex.yylex_word F (ascii "null") 40 (.value .null) (Yylex.reaches_word (by simp [Yylex.words])) (fun _ => rfl) [] sb⟩⟩
  | bool b =>
    cases b with
    | true =>
      exact ⟨_, rfl, takes_first fun sb => ⟨sb,
        @Yylex.yylex_word F (ascii "true") 41 (.value (.bool true)) (Yylex.reaches_word (by simp [Yylex.words])) (fun _ => rfl) [] sb⟩⟩
    | false =>
      exact ⟨_, rfl, takes_first fun sb => ⟨sb,
        @Yylex.yylex_word F (ascii "false") 41 (.value (.bool false)) (Yylex.reaches_word (by simp [Yylex.words])) (fun _ => rfl)
          [] sb⟩⟩
  | long n =>
    refine ⟨⟨.S_IN_FINISHED_VALUE, [.S_IN_FINISHED_VALUE], [.value (.long n)]⟩, rfl, fun sb => ?_⟩
    have hlex := Yylex.yylex_long F n hends sb
    refine ⟨fun hn => ⟨sb, ?_⟩, fun hn => ?_⟩
    · rw [JSON.Fits] at hn
      rw [if_pos hn] at hlex
      exact parseLoop_token hlex rfl (by simp)
    · rw [JSON.Fits] at hn
      rw [if_neg hn] at hlex
      exact ⟨_, parseLoop_lexThrows hlex⟩
  | double d => exact absurd h (by simp [JSON.WellFormed])
  | string s => exact ⟨_, rfl, takes_first fun sb => ⟨_, Yylex.yylex_string F s [] sb⟩⟩
  | array elements =>
    have hbracket : Yylex.Ends (ascii "]" ++ []) := fun b hb => by
      obtain rfl : 93 = b := by simpa [ascii] using hb
      exact .inr (.inl rfl)
    have hin := takes_elements elements h true none [] [] [] hbracket
    have hopen : ∀ rest, Takes F (start F) (ascii "[") rest True ((Place.element none []).ready [] []) :=
      fun rest => @Takes.word F _ _ _ _ 12 .leftSquare (Yylex.reaches_word (by simp [Yylex.words])) (fun _ => rfl) rfl
        (by simp [Place.ready])
    have hclose : Takes F ((Place.element none ([] ++ JSON.decodedElements elements)).ready [] []) (ascii "]")
        [] True ⟨.S_IN_FINISHED_VALUE, [.S_IN_ARRAY], [.array none (JSON.decodedElements elements)]⟩ :=
      @Takes.word F _ _ _ _ 13 .rightSquare (Yylex.reaches_word (by simp [Yylex.words])) (fun _ => rfl) rfl (by simp)
    refine ⟨_, ?_, (((hopen _).append hin).append hclose).congr ?_⟩
    · rfl
    · rw [true_and, and_true, JSON.Fits]
      exact (and_iff_right (by decide)).symm
  | object entries =>
    have hbrace : Yylex.Ends ([125] ++ []) := fun b hb => by
      obtain rfl : 125 = b := by simpa using hb
      exact .inr (.inr rfl)
    have hkeys : (([] ++ JSON.decodedEntries entries).map Prod.fst).Nodup := by
      rw [List.nil_append, JSON.keys_decodedEntries]
      exact h.1.map Yylex.decode_injective
    have hin := takes_entries entries h.2 true none [] [] [] hbrace hkeys
    have hopen : ∀ rest, Takes F (start F) [123] rest True ⟨.S_IN_OBJECT, [.S_IN_OBJECT], [.object none []]⟩ :=
      fun rest => @Takes.word F _ _ _ _ 10 .leftBrace (Yylex.reaches_word (by simp [Yylex.words])) (fun _ => rfl) rfl (by simp)
    have hclose : Takes F ⟨.S_IN_OBJECT, [.S_IN_OBJECT], [.object none ([] ++ JSON.decodedEntries entries)]⟩
        [125] [] True ⟨.S_IN_FINISHED_VALUE, [.S_IN_OBJECT], [.object none (JSON.decodedEntries entries)]⟩ :=
      @Takes.word F _ _ _ _ 11 .rightBrace (Yylex.reaches_word (by simp [Yylex.words])) (fun _ => rfl) rfl (by simp)
    refine ⟨_, ?_, (((hopen _).append hin).append hclose).congr ?_⟩
    · rfl
    · rw [true_and, and_true, JSON.Fits]
      exact (and_iff_right (by decide)).symm

/-- **A written value that is parsed** comes back as `decoded` if it fits and its text is not too long,
and otherwise the parser throws. -/
theorem parse_toJSONString (v : JSON F.Double) (h : v.WellFormed) :
    (v.Fits 0 ∧ v.textSize ≤ MAX_INPUT_SIZE → parse F (v.toJSONString F.numberToString) = .ok v.decoded) ∧
      (¬ (v.Fits 0 ∧ v.textSize ≤ MAX_INPUT_SIZE) →
        ∃ e, parse F (v.toJSONString F.numberToString) = .error e) := by
  obtain ⟨p, hfinish, htakes⟩ := exists_takes v h
  obtain ⟨hfits, hthrows⟩ := htakes []
  have hlength : (v.toJSONString F.numberToString).length = v.textSize :=
    JSON.length_writeJSONString F.numberToString v h
  unfold parse
  rw [hlength]
  rw [List.append_nil] at hfits hthrows
  refine ⟨fun hv => ?_, fun hv => ?_⟩
  · obtain ⟨sb, hloop⟩ := hfits hv.1
    rw [if_neg (not_lt.mpr hv.2), ← hfinish, ← parseLoop_end p sb]
    exact hloop
  · split_ifs with hsize
    · exact ⟨_, rfl⟩
    · exact hthrows fun hv1 => hv ⟨hv1, not_lt.mp hsize⟩

/-- **The round trip.** A value that is written and parsed comes back as it was exactly when no string and
no key of it holds a byte from `0x80` to `0x9F`, its integers are in the range of `long long`, and it keeps
the limits of the parser. -/
theorem roundTrip_iff (F : DoubleLibrary) (v : JSON F.Double) (h : v.WellFormed) :
    parse F (v.toJSONString F.numberToString) = .ok v ↔
      v.Plain ∧ v.Fits 0 ∧ v.textSize ≤ MAX_INPUT_SIZE := by
  obtain ⟨hfits, hthrows⟩ := parse_toJSONString v h
  by_cases hv : v.Fits 0 ∧ v.textSize ≤ MAX_INPUT_SIZE
  · rw [hfits hv, Except.ok.injEq, JSON.decoded_eq_self_iff]
    exact ⟨fun hplain => ⟨hplain, hv⟩, fun hall => hall.1⟩
  · obtain ⟨e, he⟩ := hthrows hv
    rw [he]
    exact ⟨fun h => by simp at h, fun hall => absurd hall.2 hv⟩

/-- A library in which no text is a floating point number. -/
def noDoubles : DoubleLibrary := ⟨Empty, fun _ => none, fun d => nomatch d⟩

theorem roundTrip_iff_nested :
    parse noDoubles (JSON.toJSONString noDoubles.numberToString
      (.object [([97], .array [.long (-5), .string [34, 10]])])) =
        .ok (.object [([97], .array [.long (-5), .string [34, 10]])]) :=
  (roundTrip_iff noDoubles (.object [([97], .array [.long (-5), .string [34, 10]])])
    (by simp [JSON.WellFormed, JSON.WellFormedEntries, JSON.WellFormedElements])).mpr
    ⟨by simp [JSON.Plain, JSON.PlainEntries, JSON.PlainElements, Yylex.Plain],
      by simp [JSON.Fits, JSON.FitsEntries, JSON.FitsElements, MAX_JSON_DEPTH], by decide +kernel⟩

/-- **A letter with a grave accent is broken**: the second of its two bytes is escaped. -/
theorem string_not_roundTrip : parse noDoubles (JSON.toJSONString noDoubles.numberToString
    (.string [0xC3, 0x80])) = .ok (.string [0xC3, 0xC2, 0x80]) ∧
    (JSON.string [0xC3, 0xC2, 0x80] : JSON noDoubles.Double) ≠ .string [0xC3, 0x80] := by
  refine ⟨?_, by simp⟩
  have h := (parse_toJSONString (F := noDoubles) (.string [0xC3, 0x80]) (by simp [JSON.WellFormed])).1
    ⟨by simp [JSON.Fits], by decide +kernel⟩
  rw [h]
  rfl

end JSONParser

end Minima
