import Minima.Json.JSONValue
import Minima.Lib.Scanner

/-! # `Yylex`: the tokens of a JSON text

The scanner is generated: tables of an automaton over character classes, and an action for every
accepting state. A string is collected piece by piece in a buffer, in a lexical state of its own; an
escape `\\u` gives the UTF-8 bytes of its code point.

* **`Yylex.yylex`** — the next token.
* **`Yylex.tables`** — the automaton of the tables. -/

namespace Minima

open MiniNumber (ascii digitsValue)

namespace Yylex

/-! ## The tables -/

/-- What is at an index of a table that is packed as runs, each a count and a value. -/
def unpacked : List (ℕ × ℕ) → ℕ → ℕ
  | [], _ => 0
  | (count, value) :: runs, i => if i < count then value else unpacked runs (i - count)

/-- `ZZ_CMAP_PACKED`: the class of a character. -/
def ZZ_CMAP_PACKED : List (ℕ × ℕ) :=
  [(9, 0), (1, 7), (1, 7), (2, 0), (1, 7), (18, 0), (1, 7), (1, 0), (1, 9), (8, 0), (1, 6), (1, 25), (1, 2),
   (1, 4), (1, 10), (10, 3), (1, 26), (6, 0), (4, 1), (1, 5), (1, 1), (20, 0), (1, 23), (1, 8), (1, 24),
   (3, 0), (1, 18), (1, 11), (2, 1), (1, 17), (1, 12), (5, 0), (1, 19), (1, 0), (1, 13), (3, 0), (1, 14),
   (1, 20), (1, 15), (1, 16), (5, 0), (1, 21), (1, 0), (1, 22), (0xff82, 0)]

/-- `ZZ_ACTION_PACKED_0`: the action of an accepting state. -/
def ZZ_ACTION_PACKED_0 : List (ℕ × ℕ) :=
  [(2, 0), (2, 1), (1, 2), (1, 3), (1, 4), (3, 1), (1, 5), (1, 6), (1, 7), (1, 8), (1, 9), (1, 10), (1, 11),
   (1, 12), (1, 13), (5, 0), (1, 12), (1, 14), (1, 15), (1, 16), (1, 17), (1, 18), (1, 19), (1, 20), (1, 0),
   (1, 21), (1, 0), (1, 21), (4, 0), (1, 22), (1, 23), (2, 0), (1, 24)]

/-- `ZZ_ROWMAP_PACKED_0`, unpacked: where the row of a state begins. -/
def ZZ_ROWMAP : List ℕ :=
  [0, 27, 54, 81, 108, 135, 54, 162, 189, 216, 54, 54, 54, 54, 54, 54, 243, 270, 54, 297, 324, 351, 378, 405,
   54, 54, 54, 54, 54, 54, 54, 54, 432, 459, 486, 486, 513, 540, 567, 594, 54, 54, 621, 648, 54]

/-- `ZZ_ATTRIBUTE_PACKED_0`: bit 0 of an accepting state, bit 3 of one that ends the match. -/
def ZZ_ATTRIBUTE_PACKED_0 : List (ℕ × ℕ) :=
  [(2, 0), (1, 9), (3, 1), (1, 9), (3, 1), (6, 9), (2, 1), (1, 9), (5, 0), (8, 9), (1, 0), (1, 1), (1, 0),
   (1, 1), (4, 0), (2, 9), (2, 0), (1, 9)]

/-- `ZZ_TRANS`, a row of 27 classes after the other. -/
def ZZ_TRANS : List ℤ :=
  let x : ℤ := -1
  [2, 2, 3, 4, 2, 2, 2, 5, 2, 6, 2, 2, 7, 8, 2, 9, 2, 2, 2, 2, 2, 10, 11, 12, 13, 14, 15,
   16, 16, 16, 16, 16, 16, 16, 16, 17, 18, 16, 16, 16, 16, 16, 16, 16, 16, 16, 16, 16, 16, 16, 16, 16, 16, 16,
   x, x, x, x, x, x, x, x, x, x, x, x, x, x, x, x, x, x, x, x, x, x, x, x, x, x, x,
   x, x, x, 4, x, x, x, x, x, x, x, x, x, x, x, x, x, x, x, x, x, x, x, x, x, x, x,
   x, x, x, 4, 19, 20, x, x, x, x, x, x, x, x, x, x, x, 20, x, x, x, x, x, x, x, x, x,
   x, x, x, x, x, x, x, 5, x, x, x, x, x, x, x, x, x, x, x, x, x, x, x, x, x, x, x,
   x, x, x, x, x, x, x, x, x, x, x, x, x, x, x, x, x, x, 21, x, x, x, x, x, x, x, x,
   x, x, x, x, x, x, x, x, x, x, x, x, x, x, x, x, 22, x, x, x, x, x, x, x, x, x, x,
   x, x, x, x, x, x, x, x, x, x, x, x, x, x, 23, x, x, x, x, x, x, x, x, x, x, x, x,
   16, 16, 16, 16, 16, 16, 16, 16, x, x, 16, 16, 16, 16, 16, 16, 16, 16, 16, 16, 16, 16, 16, 16, 16, 16, 16,
   x, x, x, x, x, x, x, x, 24, 25, 26, 27, 28, 29, 30, 31, 32, x, x, x, x, x, x, x, x, x, x,
   x, x, x, 33, x, x, x, x, x, x, x, x, x, x, x, x, x, x, x, x, x, x, x, x, x, x, x,
   x, x, 34, 35, x, x, 34, x, x, x, x, x, x, x, x, x, x, x, x, x, x, x, x, x, x, x, x,
   x, x, x, x, x, x, x, x, x, x, x, x, x, x, x, x, x, x, x, 36, x, x, x, x, x, x, x,
   x, x, x, x, x, x, x, x, x, x, x, x, x, x, x, x, x, x, x, 37, x, x, x, x, x, x, x,
   x, x, x, x, x, x, x, x, x, x, x, x, x, x, x, x, 38, x, x, x, x, x, x, x, x, x, x,
   x, 39, x, 39, x, 39, x, x, x, x, x, 39, 39, x, x, x, x, 39, 39, x, x, x, x, x, x, x, x,
   x, x, x, 33, x, 20, x, x, x, x, x, x, x, x, x, x, x, 20, x, x, x, x, x, x, x, x, x,
   x, x, x, 35, x, x, x, x, x, x, x, x, x, x, x, x, x, x, x, x, x, x, x, x, x, x, x,
   x, x, x, x, x, x, x, x, x, x, x, x, x, x, x, x, x, x, x, x, 38, x, x, x, x, x, x,
   x, x, x, x, x, x, x, x, x, x, x, x, x, x, x, x, x, x, x, 40, x, x, x, x, x, x, x,
   x, x, x, x, x, x, x, x, x, x, x, x, x, x, x, x, x, 41, x, x, x, x, x, x, x, x, x,
   x, 42, x, 42, x, 42, x, x, x, x, x, 42, 42, x, x, x, x, 42, 42, x, x, x, x, x, x, x, x,
   x, 43, x, 43, x, 43, x, x, x, x, x, 43, 43, x, x, x, x, 43, 43, x, x, x, x, x, x, x, x,
   x, 44, x, 44, x, 44, x, x, x, x, x, 44, 44, x, x, x, x, 44, 44, x, x, x, x, x, x, x, x]

/-- The transition on a character. -/
def zzNext (zzState : ℕ) (zzInput : Byte) : Option ℕ :=
  let cmapIndex := unpacked ZZ_CMAP_PACKED zzInput.toNat
  let row := ZZ_ROWMAP.getD zzState 0
  let zzNext := ZZ_TRANS.getD (row + cmapIndex) (-1)
  if zzNext = -1 then none else some zzNext.toNat

/-- The automaton of the tables. -/
def tables : Scanner.Automaton ℕ Byte where
  next := zzNext
  accepting zzState := unpacked ZZ_ATTRIBUTE_PACKED_0 zzState &&& 1 = 1
  final zzState := unpacked ZZ_ATTRIBUTE_PACKED_0 zzState &&& 8 = 8

end Yylex

/-! ## Tokens -/

/-- `Yytoken::Value`. -/
inductive Yytoken.Value (D : Type) where
  | null
  | bool (b : Bool)
  | long (v : ℤ)
  | double (d : D)
  | string (s : Text)

/-- `Yytoken`. -/
inductive Yytoken (D : Type) where
  | value (v : Yytoken.Value D)
  | leftBrace
  | rightBrace
  | leftSquare
  | rightSquare
  | comma
  | colon
  | eof

/-- The lexical states. -/
inductive LexicalState where
  | YYINITIAL
  | STRING_BEGIN

/-- The scanner: what is behind `zzMarkedPos` in its buffer and the stream, the lexical state, and the
string that is being collected. -/
structure Yylex where
  input : Text
  zzLexicalState : LexicalState
  sb : Text

namespace Yylex

/-- `ZZ_LEXSTATE`: where the automaton starts. -/
def ZZ_LEXSTATE : LexicalState → ℕ
  | .YYINITIAL => 0
  | .STRING_BEGIN => 1

/-! ## Actions -/

/-- `stoll`, of the texts that the automaton takes for a number: out of range it throws. -/
def stoll (t : Text) : Option ℤ :=
  let v : ℤ := if t.head? = some 45 then -digitsValue t.tail else digitsValue t
  if -2 ^ 63 ≤ v ∧ v < 2 ^ 63 then some v else none

/-- The value of a hexadecimal digit. -/
def hexDigitValue (c : Byte) : ℕ :=
  if c ≤ 57 then c.toNat - 48 else if c ≤ 70 then c.toNat - 55 else c.toNat - 87

/-- The UTF-8 bytes of a code point. -/
def utf8 (ch_val : ℕ) : Option Text :=
  if ch_val ≤ 0x7F then some [UInt8.ofNat ch_val]
  else if ch_val ≤ 0x7FF then
    some [UInt8.ofNat (0xC0 ||| (ch_val >>> 6)), UInt8.ofNat (0x80 ||| (ch_val &&& 0x3F))]
  else if ch_val ≤ 0xFFFF then
    some [UInt8.ofNat (0xE0 ||| (ch_val >>> 12)), UInt8.ofNat (0x80 ||| ((ch_val >>> 6) &&& 0x3F)),
      UInt8.ofNat (0x80 ||| (ch_val &&& 0x3F))]
  else if ch_val ≤ 0x10FFFF then
    some [UInt8.ofNat (0xF0 ||| (ch_val >>> 18)), UInt8.ofNat (0x80 ||| ((ch_val >>> 12) &&& 0x3F)),
      UInt8.ofNat (0x80 ||| ((ch_val >>> 6) &&& 0x3F)), UInt8.ofNat (0x80 ||| (ch_val &&& 0x3F))]
  else none

/-- `PUSH_UNICODE`: the bytes for an escape of a code point. -/
def pushUnicode (t : Text) : Option Text :=
  if 6 ≤ t.length ∧ t.take 2 = ascii "\\u" then
    utf8 ((t.drop 2).foldl (fun acc c => 16 * acc + hexDigitValue c) 0)
  else none

section Lex

variable (F : DoubleLibrary)

/-- What an action makes of the matched text: a token, or none and the scanner goes on; with the lexical
state and the collected string behind it. -/
def act (zzAction : ℕ) (yytext : Text) (zzLexicalState : LexicalState) (sb : Text) :
    Result (Option (Yytoken F.Double) × LexicalState × Text) :=
  match zzAction with
  | 11 => .ok (none, zzLexicalState, sb ++ yytext)
  | 4 => .ok (none, .STRING_BEGIN, [])
  | 16 => .ok (none, zzLexicalState, sb ++ [8])
  | 6 => .ok (some .rightBrace, zzLexicalState, sb)
  | 23 => .ok (some (.value (.bool (yytext = ascii "true"))), zzLexicalState, sb)
  | 22 => .ok (some (.value .null), zzLexicalState, sb)
  | 13 => .ok (some (.value (.string sb)), .YYINITIAL, sb)
  | 12 => .ok (none, zzLexicalState, sb ++ [92])
  | 21 =>
    match F.stod yytext with
    | some val => .ok (some (.value (.double val)), zzLexicalState, sb)
    | none => throwException "Invalid double: "
  | 1 => throwException "Unexpected character ("
  | 8 => .ok (some .rightSquare, zzLexicalState, sb)
  | 19 => .ok (none, zzLexicalState, sb ++ [13])
  | 15 => .ok (none, zzLexicalState, sb ++ [47])
  | 10 => .ok (some .colon, zzLexicalState, sb)
  | 14 => .ok (none, zzLexicalState, sb ++ [34])
  | 5 => .ok (some .leftBrace, zzLexicalState, sb)
  | 17 => .ok (none, zzLexicalState, sb ++ [12])
  | 24 =>
    match pushUnicode yytext with
    | some bytes => .ok (none, zzLexicalState, sb ++ bytes)
    | none => throwException "Unicode escape error: "
  | 20 => .ok (none, zzLexicalState, sb ++ [9])
  | 7 => .ok (some .leftSquare, zzLexicalState, sb)
  | 2 =>
    match stoll yytext with
    | some val => .ok (some (.value (.long val)), zzLexicalState, sb)
    | none => throwException "Invalid long: "
  | 18 => .ok (none, zzLexicalState, sb ++ [10])
  | 9 => .ok (some .comma, zzLexicalState, sb)
  | 3 => .ok (none, zzLexicalState, sb)
  | _ => throwException "Error: could not match input"

/-- `yylex`: the next token, or none at the end of the input. Where nothing matches there is no input
left (`isSome_scan_tables`). -/
def yylex (y : Yylex) : Result (Option (Yytoken F.Double) × Yylex) :=
  match _h : Scanner.scan tables (ZZ_LEXSTATE y.zzLexicalState) y.input none with
  | none => .ok (none, y)
  | some (zzState, rest) =>
    let yytext := y.input.take (y.input.length - rest.length)
    match act F (unpacked ZZ_ACTION_PACKED_0 zzState) yytext y.zzLexicalState y.sb with
    | .error e => .error e
    | .ok (some token, zzLexicalState, sb) => .ok (some token, ⟨rest, zzLexicalState, sb⟩)
    | .ok (none, zzLexicalState, sb) => yylex ⟨rest, zzLexicalState, sb⟩
termination_by y.input.length
decreasing_by exact Scanner.length_scan_lt _h

/-- **A token takes something of the input.** -/
theorem length_yylex_lt {y y' : Yylex} {token : Yytoken F.Double}
    (h : yylex F y = .ok (some token, y')) : y'.input.length < y.input.length := by
  fun_induction yylex F y with
  | case1 y hscan => simp at h
  | case2 y zzState rest hscan yytext e hact => simp at h
  | case3 y zzState rest hscan yytext t lexical sb hact =>
    cases h
    exact Scanner.length_scan_lt hscan
  | case4 y zzState rest hscan yytext lexical sb hact ih =>
    exact (ih h).trans (Scanner.length_scan_lt hscan)

/-! ## What the automaton does -/

/-- What holds of all codes holds of all bytes. -/
theorem forall_byte {p : Byte → Bool} (h : ((List.range 256).all fun n => p (UInt8.ofNat n)) = true)
    (b : Byte) : p b = true := by
  have hb := List.all_eq_true.mp h b.toNat (List.mem_range.mpr b.toNat_lt)
  rwa [UInt8.ofNat_toNat] at hb

/-- From the start of either lexical state every character is a match. -/
theorem isSome_scan_tables (lexical : LexicalState) (b : Byte) (rest : Text) :
    (Scanner.scan tables (ZZ_LEXSTATE lexical) (b :: rest) none).isSome := by
  have hfirst : ∀ s ∈ [0, 1], ∃ t, zzNext s b = some t ∧ tables.accepting t = true := by
    intro s hs
    have h := @forall_byte (fun b => [0, 1].all fun s => (zzNext s b).any tables.accepting)
      (by decide +kernel) b
    have hs := List.all_eq_true.mp h s hs
    cases hnext : zzNext s b with
    | none => simp [hnext] at hs
    | some t => exact ⟨t, rfl, by simpa [hnext] using hs⟩
  obtain ⟨t, hnext, ha⟩ := hfirst (ZZ_LEXSTATE lexical) (by cases lexical <;> simp [ZZ_LEXSTATE])
  have hnext' : tables.next (ZZ_LEXSTATE lexical) b = some t := hnext
  cases hf : tables.final t with
  | true =>
    rw [Scanner.scan_final hnext' ha hf]
    rfl
  | false =>
    rw [Scanner.scan_accepting hnext' ha hf]
    exact Scanner.isSome_scan rfl

/-- **One match**: its action decides whether the scanner goes on behind it. -/
theorem yylex_of_scan {w rest : Text} {lexical : LexicalState} {state : ℕ}
    (hscan : Scanner.scan tables (ZZ_LEXSTATE lexical) (w ++ rest) none = some (state, rest)) (sb : Text) :
    yylex F ⟨w ++ rest, lexical, sb⟩ =
      match act F (unpacked ZZ_ACTION_PACKED_0 state) w lexical sb with
      | .error e => .error e
      | .ok (some token, lexical', sb') => .ok (some token, ⟨rest, lexical', sb'⟩)
      | .ok (none, lexical', sb') => yylex F ⟨rest, lexical', sb'⟩ := by
  have htext : (w ++ rest).take ((w ++ rest).length - rest.length) = w := by
    rw [List.length_append, Nat.add_sub_cancel, List.take_left]
  rw [yylex]
  split
  · next hnone => simp [hscan] at hnone
  · next state' rest' hsome =>
    obtain ⟨rfl, rfl⟩ : state = state' ∧ rest = rest' := by simpa [hscan] using hsome
    simp only [htext]

end Lex

end Yylex

end Minima
