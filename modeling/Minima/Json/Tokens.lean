import Minima.Json.JSONParser

/-! # The tokens of a written text

What the scanner makes of the texts that the writer produces. Strings come back byte by byte through
`decode`: an escaped byte from `0x80` on is read as a code point and comes back as two bytes.

* **`Yylex.yylex_string`** — a written string.
* **`Yylex.yylex_long`** — a written integer, in front of something that ends it.
* **`Yylex.decode_eq_self_iff`** — the strings that come back as they were. -/

namespace Minima

open MiniNumber (ascii digitsText digitsValue)

namespace Yylex

variable (F : DoubleLibrary)

/-! ## What the tables say -/

/-- The words that are one token, with the state that they lead to. -/
def words : List (Text × ℕ) :=
  [([123], 10), ([125], 11), (ascii "[", 12), (ascii "]", 13), (ascii ",", 14), (ascii ":", 15), ([34], 6),
    (ascii "null", 40), (ascii "true", 41), (ascii "false", 41)]

/-- The same for what stands in a string: the escapes of two characters, and the quote that ends it. -/
def escapes : List (Text × ℕ) :=
  [([34], 18), (JSON.escapeByte 92, 24), (JSON.escapeByte 34, 25), (JSON.escapeByte 47, 26),
    (JSON.escapeByte 8, 27), (JSON.escapeByte 12, 28), (JSON.escapeByte 10, 29), (JSON.escapeByte 13, 30),
    (JSON.escapeByte 9, 31)]

theorem reaches_spec : (∀ p ∈ words, Scanner.reaches tables 0 p.1 = some p.2) ∧
    (∀ p ∈ escapes, Scanner.reaches tables 1 p.1 = some p.2) := by
  decide +kernel

theorem reaches_word {w : Text} {state : ℕ} (h : (w, state) ∈ words) :
    Scanner.reaches tables 0 w = some state :=
  reaches_spec.1 _ h

theorem reaches_escape {w : Text} {state : ℕ} (h : (w, state) ∈ escapes) :
    Scanner.reaches tables 1 w = some state :=
  reaches_spec.2 _ h

/-- A sign, the digits of a number and the plain characters of a string may go on; a number does not with
what ends it. -/
theorem states_spec : (∀ state ∈ [3, 4, 16], tables.accepting state = true ∧ tables.final state = false) ∧
    tables.next 0 45 = some 3 ∧ ∀ b ∈ [44, 93, 125], zzNext 4 b = none := by
  decide +kernel

theorem accepting_of_mem {state : ℕ} (h : state ∈ [3, 4, 16]) : tables.accepting state = true :=
  (states_spec.1 state h).1

theorem not_final_of_mem {state : ℕ} (h : state ∈ [3, 4, 16]) : tables.final state = false :=
  (states_spec.1 state h).2

/-! ## Strings -/

/-- What comes back for a byte of a string. -/
def decodeByte (b : Byte) : Text := if 0x80 ≤ b ∧ b ≤ 0x9F then [0xC2, b] else [b]

/-- What comes back for a string. -/
def decode (s : Text) : Text := s.flatMap decodeByte

theorem zzNext_string (b : Byte) :
    zzNext 1 b = some (if b = 92 then 17 else if b = 34 then 18 else 16) := by
  have h := @forall_byte (fun b => zzNext 1 b == some (if b = 92 then 17 else if b = 34 then 18 else 16))
    (by decide +kernel) b
  simpa using h

theorem zzNext_plain (b : Byte) : zzNext 16 b = if b = 92 ∨ b = 34 then none else some 16 := by
  have h := @forall_byte (fun b => zzNext 16 b == if b = 92 ∨ b = 34 then none else some 16)
    (by decide +kernel) b
  simpa using h

/-- The characters that need no escape are taken in runs, which comes to the same as one by one. -/
theorem yylex_plain {b : Byte} (h1 : b ≠ 92) (h2 : b ≠ 34) (rest sb : Text) :
    yylex F ⟨b :: rest, .STRING_BEGIN, sb⟩ = yylex F ⟨rest, .STRING_BEGIN, sb ++ [b]⟩ := by
  -- the run that begins in `rest`
  set plain : Byte → Bool := fun b => b ≠ 92 ∧ b ≠ 34 with hplain
  set w := rest.takeWhile plain with hw
  set r := rest.dropWhile plain with hr
  have hrest : rest = w ++ r := (List.takeWhile_append_dropWhile).symm
  have hloop : ∀ c ∈ w, zzNext 16 c = some 16 := by
    intro c hc
    have hcp := List.mem_takeWhile_imp hc
    rw [zzNext_plain, if_neg (by simpa [hplain, not_or] using hcp)]
  have hstop : ∀ c ∈ r.head?, zzNext 16 c = none := by
    intro c hc
    have hnot := List.head?_dropWhile_not plain rest
    rw [← hr, Option.mem_def.mp hc] at hnot
    rw [zzNext_plain, if_pos]
    by_contra hne
    simp [hplain, not_or.mp hne] at hnot
  have hscan : ∀ c, plain c = true → ∀ u, (∀ d ∈ u, zzNext 16 d = some 16) →
      Scanner.scan tables 1 ((c :: u) ++ r) none = some (16, r) := by
    intro c hc u hu
    have hnext : tables.next 1 c = some 16 := by
      have hcp : c ≠ 92 ∧ c ≠ 34 := by simpa [hplain] using hc
      show zzNext 1 c = _
      rw [zzNext_string, if_neg hcp.1, if_neg hcp.2]
    rw [List.cons_append, Scanner.scan_accepting hnext (accepting_of_mem (by simp)) (not_final_of_mem (by simp)),
      Scanner.scan_loop hu (accepting_of_mem (by simp)) (not_final_of_mem (by simp)), Scanner.scan_stop hstop]
  have hact : ∀ t sb, act F (unpacked ZZ_ACTION_PACKED_0 16) t .STRING_BEGIN sb =
      .ok (none, .STRING_BEGIN, sb ++ t) := fun _ _ => rfl
  have hrun : ∀ c u sb, plain c = true → (∀ d ∈ u, zzNext 16 d = some 16) →
      yylex F ⟨(c :: u) ++ r, .STRING_BEGIN, sb⟩ = yylex F ⟨r, .STRING_BEGIN, sb ++ c :: u⟩ := by
    intro c u sb hc hu
    rw [@yylex_of_scan F _ _ .STRING_BEGIN _ (hscan c hc u hu), hact]
  have hb : plain b = true := by simp [hplain, h1, h2]
  rw [hrest, ← List.cons_append, hrun b w sb hb hloop]
  cases hcases : w with
  | nil => rfl
  | cons c u =>
    have hc : plain c = true := List.mem_takeWhile_imp (by rw [← hw, hcases]; simp)
    rw [hrun c u _ hc fun d hd => hloop d (by rw [hcases]; simp [hd]), List.append_assoc]
    rfl

/-- **The scanner undoes an escape**, except that a byte from `0x80` on becomes two. -/
theorem yylex_escapeByte (b : Byte) (rest sb : Text) :
    yylex F ⟨JSON.escapeByte b ++ rest, .STRING_BEGIN, sb⟩ =
      yylex F ⟨rest, .STRING_BEGIN, sb ++ decodeByte b⟩ := by
  have hkinds := @forall_byte (fun b =>
    (JSON.escapeByte b == [b] && b != 92 && b != 34 && decodeByte b == [b]) ||
      (Scanner.reaches tables 1 (JSON.escapeByte b) == some 44 &&
        pushUnicode (JSON.escapeByte b) == some (decodeByte b)) ||
      [34, 92, 8, 12, 10, 13, 9, 47].contains b) (by decide +kernel) b
  simp only [Bool.or_eq_true, Bool.and_eq_true, beq_iff_eq, bne_iff_ne, List.contains_eq_mem,
    decide_eq_true_eq] at hkinds
  rcases hkinds with (⟨⟨⟨hself, h1⟩, h2⟩, hdecode⟩ | ⟨hreaches, hpush⟩) | hshort
  · rw [hself, hdecode]
    exact yylex_plain F h1 h2 rest sb
  · have hact : act F (unpacked ZZ_ACTION_PACKED_0 44) (JSON.escapeByte b) .STRING_BEGIN sb =
        .ok (none, .STRING_BEGIN, sb ++ decodeByte b) := by
      have haction : unpacked ZZ_ACTION_PACKED_0 44 = 24 := by rfl
      rw [haction]
      simp only [act, hpush]
    rw [@yylex_of_scan F _ _ .STRING_BEGIN _ (Scanner.scan_of_reaches hreaches), hact]
  · -- a backslash and a letter
    have hletter : ∀ (w x : Text) (state : ℕ), Scanner.reaches tables 1 w = some state →
        act F (unpacked ZZ_ACTION_PACKED_0 state) w .STRING_BEGIN sb =
          .ok (none, .STRING_BEGIN, sb ++ x) →
        yylex F ⟨w ++ rest, .STRING_BEGIN, sb⟩ = yylex F ⟨rest, .STRING_BEGIN, sb ++ x⟩ := by
      intro w x state hreaches hact
      rw [@yylex_of_scan F _ _ .STRING_BEGIN _ (Scanner.scan_of_reaches hreaches), hact]
    simp only [List.mem_cons, List.not_mem_nil, or_false] at hshort
    rcases hshort with rfl | rfl | rfl | rfl | rfl | rfl | rfl | rfl
    · exact hletter _ _ 25 (reaches_escape (by simp [escapes])) rfl
    · exact hletter _ _ 24 (reaches_escape (by simp [escapes])) rfl
    · exact hletter _ _ 27 (reaches_escape (by simp [escapes])) rfl
    · exact hletter _ _ 28 (reaches_escape (by simp [escapes])) rfl
    · exact hletter _ _ 29 (reaches_escape (by simp [escapes])) rfl
    · exact hletter _ _ 30 (reaches_escape (by simp [escapes])) rfl
    · exact hletter _ _ 31 (reaches_escape (by simp [escapes])) rfl
    · exact hletter _ _ 26 (reaches_escape (by simp [escapes])) rfl

/-- **A string is one token**, whatever its characters are written as, if the scanner takes each of them. -/
theorem yylex_literal {write : Byte → Text}
    (hwrite : ∀ b tail sb, yylex F ⟨write b ++ tail, .STRING_BEGIN, sb⟩ =
      yylex F ⟨tail, .STRING_BEGIN, sb ++ decodeByte b⟩) (s rest sb : Text) :
    yylex F ⟨[34] ++ (s.flatMap write ++ (34 :: rest)), .YYINITIAL, sb⟩ =
      .ok (some (.value (.string (decode s))), ⟨rest, .YYINITIAL, decode s⟩) := by
  have hopen : yylex F ⟨[34] ++ (s.flatMap write ++ (34 :: rest)), .YYINITIAL, sb⟩ =
      yylex F ⟨s.flatMap write ++ (34 :: rest), .STRING_BEGIN, []⟩ := by
    have hreaches : Scanner.reaches tables 0 [34] = some 6 := reaches_word (by simp [words])
    rw [@yylex_of_scan F _ _ .YYINITIAL _ (Scanner.scan_of_reaches hreaches)]
    rfl
  have hclose : ∀ sb, yylex F ⟨[34] ++ rest, .STRING_BEGIN, sb⟩ =
      .ok (some (.value (.string sb)), ⟨rest, .YYINITIAL, sb⟩) := by
    intro sb
    have hreaches : Scanner.reaches tables 1 [34] = some 18 := reaches_escape (by simp [escapes])
    rw [@yylex_of_scan F _ _ .STRING_BEGIN _ (Scanner.scan_of_reaches hreaches)]
    rfl
  have hbody : ∀ (s sb tail : Text), yylex F ⟨s.flatMap write ++ tail, .STRING_BEGIN, sb⟩ =
      yylex F ⟨tail, .STRING_BEGIN, sb ++ decode s⟩ := by
    intro s
    induction s with
    | nil => intro sb tail; simp [decode]
    | cons b s ih =>
      intro sb tail
      rw [List.flatMap_cons, List.append_assoc, hwrite, ih, List.append_assoc]
      rfl
  rw [hopen, hbody, List.nil_append]
  exact hclose (decode s)

/-- **A written string is one token.** -/
theorem yylex_string (s rest sb : Text) :
    yylex F ⟨JSON.writeQuotedEscaped s ++ rest, .YYINITIAL, sb⟩ =
      .ok (some (.value (.string (decode s))), ⟨rest, .YYINITIAL, decode s⟩) := by
  have hwrite : JSON.writeQuotedEscaped s ++ rest = [34] ++ (s.flatMap JSON.escapeByte ++ (34 :: rest)) := by
    rw [JSON.writeQuotedEscaped, List.append_assoc, List.append_assoc]
    rfl
  rw [hwrite]
  exact yylex_literal F (yylex_escapeByte F) s rest sb

/-- A string without the bytes `0x80` to `0x9F`. -/
def Plain (s : Text) : Prop := ∀ b ∈ s, b < 0x80 ∨ 0x9F < b

instance (s : Text) : Decidable (Plain s) := inferInstanceAs (Decidable (∀ b ∈ s, b < 0x80 ∨ 0x9F < b))

theorem decodeByte_of_plain {b : Byte} (h : b < 0x80 ∨ 0x9F < b) : decodeByte b = [b] := by
  refine if_neg fun hb => ?_
  rcases h with h | h
  · exact absurd hb.1 (UInt8.not_le.mpr h)
  · exact absurd hb.2 (UInt8.not_le.mpr h)

theorem decodeByte_of_not_plain {b : Byte} (h : ¬ (b < 0x80 ∨ 0x9F < b)) : decodeByte b = [0xC2, b] := by
  rw [not_or, UInt8.not_lt, UInt8.not_lt] at h
  exact if_pos h

/-- A string that comes back is at least as long. -/
theorem length_le_length_decode (s : Text) : s.length ≤ (decode s).length := by
  induction s with
  | nil => exact Nat.zero_le _
  | cons b s ih =>
    rw [decode, List.flatMap_cons, List.length_append, List.length_cons]
    have hb : 1 ≤ (decodeByte b).length := by
      rw [decodeByte]
      split_ifs <;> simp
    have := ih
    rw [decode] at this
    omega

/-- **What comes back is the string itself** exactly when no byte of it is in the range. -/
theorem decode_eq_self_iff {s : Text} : decode s = s ↔ Plain s := by
  induction s with
  | nil => simp [decode, Plain]
  | cons b s ih =>
    have hcons : decode (b :: s) = decodeByte b ++ decode s := List.flatMap_cons
    by_cases hb : b < 0x80 ∨ 0x9F < b
    · rw [hcons, decodeByte_of_plain hb, List.singleton_append, List.cons.injEq, ih]
      simp [Plain, hb]
    · refine iff_of_false (fun h => ?_) fun h => hb (h b (by simp))
      have hlen := congrArg List.length h
      have hle := length_le_length_decode s
      rw [hcons, decodeByte_of_not_plain hb, List.length_append, List.length_cons, List.length_cons,
        List.length_cons] at hlen
      simp at hlen
      omega

/-- What comes back for a string never begins with a byte of the range. -/
theorem head_decode {b : Byte} {s : Text} (h : b ∈ (decode s).head?) : b < 0x80 ∨ 0x9F < b := by
  cases s with
  | nil => simp [decode] at h
  | cons c s =>
    rw [decode, List.flatMap_cons] at h
    by_cases hc : c < 0x80 ∨ 0x9F < c
    · rw [decodeByte_of_plain hc] at h
      obtain rfl : c = b := by simpa using h
      exact hc
    · rw [decodeByte_of_not_plain hc] at h
      obtain rfl : 0xC2 = b := by simpa using h
      decide

/-- **No two strings come back as the same.** -/
theorem decode_injective : Function.Injective decode := by
  intro s
  induction s with
  | nil =>
    intro t h
    have := length_le_length_decode t
    rw [← h] at this
    exact (List.eq_nil_of_length_eq_zero (by simpa [decode] using this)).symm
  | cons b s ih =>
    intro t h
    have hcons : ∀ b s, decode (b :: s) = decodeByte b ++ decode s := fun _ _ => List.flatMap_cons
    -- the second byte that comes back for a byte of the range begins no string that comes back
    have hno : ∀ {c : Byte} {u v : Text}, ¬ (c < 0x80 ∨ 0x9F < c) → decode u ≠ c :: v := by
      intro c u v hc hu
      exact hc (head_decode (by rw [hu]; rfl))
    cases t with
    | nil =>
      have hle := length_le_length_decode (b :: s)
      rw [h] at hle
      simp [decode] at hle
    | cons c t =>
      rw [hcons, hcons] at h
      by_cases hb : b < 0x80 ∨ 0x9F < b <;> by_cases hc : c < 0x80 ∨ 0x9F < c
      · rw [decodeByte_of_plain hb, decodeByte_of_plain hc] at h
        obtain ⟨rfl, htail⟩ := List.cons.inj h
        rw [ih htail]
      · rw [decodeByte_of_plain hb, decodeByte_of_not_plain hc] at h
        exact absurd (List.cons.inj h).2 (hno hc)
      · rw [decodeByte_of_not_plain hb, decodeByte_of_plain hc] at h
        exact absurd (List.cons.inj h).2.symm (hno hb)
      · rw [decodeByte_of_not_plain hb, decodeByte_of_not_plain hc] at h
        obtain ⟨rfl, htail⟩ := List.cons.inj (List.cons.inj h).2
        rw [ih htail]

/-! ## Integers, and the other tokens -/

/-- What ends a number: nothing, or the comma or bracket behind it. -/
def Ends (rest : Text) : Prop := ∀ b ∈ rest.head?, b = 44 ∨ b = 93 ∨ b = 125

theorem zzNext_digit {b : Byte} (h : MiniNumber.isDigit b = true) :
    zzNext 0 b = some 4 ∧ zzNext 3 b = some 4 ∧ zzNext 4 b = some 4 := by
  have hall := @forall_byte (fun b => !MiniNumber.isDigit b ||
    (zzNext 0 b == some 4 && zzNext 3 b == some 4 && zzNext 4 b == some 4)) (by decide +kernel) b
  simpa [h, and_assoc] using hall

/-- The match of a number. -/
theorem scan_integerToString (v : ℤ) {rest : Text} (hends : Ends rest) :
    Scanner.scan tables 0 (JSON.integerToString v ++ rest) none = some (4, rest) := by
  have hstop : ∀ b ∈ rest.head?, zzNext 4 b = none := by
    intro b hb
    exact states_spec.2.2 b (by simpa using hends b hb)
  obtain ⟨d, ds, hds⟩ := List.exists_cons_of_ne_nil (MiniNumber.digitsText_ne_nil v.natAbs)
  have hdigit : ∀ b ∈ d :: ds, MiniNumber.isDigit b = true := fun b hb =>
    MiniNumber.isDigit_of_mem_digitsText (hds ▸ hb)
  have hloop : Scanner.scan tables 4 (ds ++ rest) (some (4, ds ++ rest)) = some (4, rest) := by
    rw [Scanner.scan_loop (fun b hb => (zzNext_digit (hdigit b (by simp [hb]))).2.2)
      (accepting_of_mem (by simp)) (not_final_of_mem (by simp)), Scanner.scan_stop hstop]
  have hd := zzNext_digit (hdigit d (by simp))
  unfold JSON.integerToString
  rw [hds]
  split_ifs with hneg
  · rw [List.cons_append, Scanner.scan_accepting states_spec.2.1 (accepting_of_mem (by simp))
      (not_final_of_mem (by simp)), List.cons_append, Scanner.scan_accepting hd.2.1
      (accepting_of_mem (by simp)) (not_final_of_mem (by simp)), hloop]
  · rw [List.cons_append, Scanner.scan_accepting hd.1 (accepting_of_mem (by simp))
      (not_final_of_mem (by simp)), hloop]

/-- `stoll` reads what was written, in its range. -/
theorem stoll_integerToString (v : ℤ) :
    stoll (JSON.integerToString v) = if -2 ^ 63 ≤ v ∧ v < 2 ^ 63 then some v else none := by
  have hvalue : (if (JSON.integerToString v).head? = some 45
      then -(digitsValue (JSON.integerToString v).tail : ℤ)
      else digitsValue (JSON.integerToString v)) = v := by
    unfold JSON.integerToString
    split_ifs with hneg hhead hhead
    · rw [List.tail_cons, MiniNumber.digitsValue_digitsText]
      omega
    · exact absurd rfl hhead
    · -- a digit is no minus sign
      have hmem : (45 : Byte) ∈ digitsText v.natAbs := List.mem_of_mem_head? hhead
      exact absurd (MiniNumber.isDigit_of_mem_digitsText hmem) (by decide)
    · rw [MiniNumber.digitsValue_digitsText]
      omega
  simp only [stoll, hvalue]

/-- **A written integer is one token** in the range of `long long`, and else an exception. -/
theorem yylex_long (v : ℤ) {rest : Text} (hends : Ends rest) (sb : Text) :
    yylex F ⟨JSON.integerToString v ++ rest, .YYINITIAL, sb⟩ =
      if -2 ^ 63 ≤ v ∧ v < 2 ^ 63 then .ok (some (.value (.long v)), ⟨rest, .YYINITIAL, sb⟩)
      else throwException "Invalid long: " := by
  have hact : act F (unpacked ZZ_ACTION_PACKED_0 4) (JSON.integerToString v) .YYINITIAL sb =
      (stoll (JSON.integerToString v)).elim (throwException "Invalid long: ")
        fun val => .ok (some (.value (.long val)), .YYINITIAL, sb) := by
    have haction : unpacked ZZ_ACTION_PACKED_0 4 = 2 := by rfl
    rw [haction]
    cases hval : stoll (JSON.integerToString v) <;> simp [act, hval]
  rw [@yylex_of_scan F _ _ .YYINITIAL _ (scan_integerToString v hends), hact, stoll_integerToString]
  split_ifs <;> rfl

/-- A word that is one token. -/
theorem yylex_word {w : Text} {state : ℕ} {token : Yytoken F.Double}
    (hreaches : Scanner.reaches tables 0 w = some state)
    (hact : ∀ sb, act F (unpacked ZZ_ACTION_PACKED_0 state) w .YYINITIAL sb = .ok (some token, .YYINITIAL, sb))
    (rest sb : Text) :
    yylex F ⟨w ++ rest, .YYINITIAL, sb⟩ = .ok (some token, ⟨rest, .YYINITIAL, sb⟩) := by
  rw [@yylex_of_scan F _ _ .YYINITIAL _ (Scanner.scan_of_reaches hreaches), hact]

theorem yylex_end (sb : Text) : yylex F ⟨[], .YYINITIAL, sb⟩ = .ok (none, ⟨[], .YYINITIAL, sb⟩) := by
  rw [yylex]
  rfl

end Yylex

end Minima
