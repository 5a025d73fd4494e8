import Minima.Kissvm.Value

/-! # `ScriptTokenizer`: the words of a script

A script text is cut into tokens from left to right: operators of one or two characters, brackets,
texts in square brackets, and words. A word is a command, a literal, a function, a boolean operator,
a global or a variable, in this order.

* **`ScriptTokenizer.tokenize`** — the tokens of a text, or the exception of the first word that is
  none.
* **`ScriptTokenizer.tokenizeFrom_of_le`** — the scan passes at least one character in every turn. -/

namespace Minima.Kissvm

/-! ## Functions -/

/-- The functions of `MinimaFunction`'s prototype list. -/
inductive MinimaFunction where
  | concat | len | rev | subset | get | exists | address
  | bool | hex | number | string | ascii | utf8
  | abs | ceil | floor | max | min | dec | inc | sigdig | pow | sqrt
  | function | suminputs | sumoutputs | setlen | replace | replacefirst | substr | overwrite
  | sha2 | sha3 | proof | bitset | bitget | bitcount | signedby | multisig | checksig
  | getinaddr | getinamt | getinid | getintok | verifyin
  | getoutaddr | getoutamt | getouttok | getoutkeepstate | verifyout
  | state | prevstate | samestate
  deriving DecidableEq

namespace MinimaFunction

/-- `prototypeList`: every function with its name, in the order of the source. -/
def prototypeList : List (MinimaFunction × String) :=
  [(concat, "CONCAT"), (len, "LEN"), (rev, "REV"), (subset, "SUBSET"), (get, "GET"),
    (.exists, "EXISTS"), (address, "ADDRESS"), (bool, "BOOL"), (hex, "HEX"), (number, "NUMBER"),
    (string, "STRING"), (ascii, "ASCII"), (utf8, "UTF8"), (abs, "ABS"), (ceil, "CEIL"),
    (floor, "FLOOR"), (max, "MAX"), (min, "MIN"), (dec, "DEC"), (inc, "INC"),
    (sigdig, "SIGDIG"), (pow, "POW"), (sqrt, "SQRT"), (function, "FUNCTION"),
    (suminputs, "SUMINPUTS"), (sumoutputs, "SUMOUTPUTS"), (setlen, "SETLEN"),
    (replace, "REPLACE"), (replacefirst, "REPLACEFIRST"), (substr, "SUBSTR"),
    (overwrite, "OVERWRITE"), (sha2, "SHA2"), (sha3, "SHA3"), (proof, "PROOF"),
    (bitset, "BITSET"), (bitget, "BITGET"), (bitcount, "BITCOUNT"), (signedby, "SIGNEDBY"),
    (multisig, "MULTISIG"), (checksig, "CHECKSIG"), (getinaddr, "GETINADDR"),
    (getinamt, "GETINAMT"), (getinid, "GETINID"), (getintok, "GETINTOK"), (verifyin, "VERIFYIN"),
    (getoutaddr, "GETOUTADDR"), (getoutamt, "GETOUTAMT"), (getouttok, "GETOUTTOK"),
    (getoutkeepstate, "GETOUTKEEPSTATE"), (verifyout, "VERIFYOUT"), (state, "STATE"),
    (prevstate, "PREVSTATE"), (samestate, "SAMESTATE")]

/-- `requiredParams`. -/
def requiredParams : MinimaFunction → ℕ
  | concat | max | min | sigdig | pow | setlen | bitget | multisig | samestate => 2
  | subset | replace | replacefirst | substr | bitset | checksig => 3
  | verifyin | verifyout => 4
  | overwrite | proof => 5
  | _ => 1

/-- `isRequiredMinimumParameterNumber`. -/
def isRequiredMinimumParameterNumber : MinimaFunction → Bool
  | concat | get | .exists | max | min | function | multisig | verifyout => true
  | _ => false

/-- `getFunction`: the first function with the name, in either case; nothing where the source
throws. -/
def getFunction (zFunction : Text) : Option MinimaFunction :=
  (prototypeList.find? fun f => MiniNumber.ascii f.2 == zFunction.map BaseConverter.toUpper).map
    Prod.fst

/-- `checkParamNumberCorrect` for a number of parameters. -/
def checkParamNumberCorrect (f : MinimaFunction) (paramsize : ℕ) : Scripted Unit :=
  if f.isRequiredMinimumParameterNumber then
    if paramsize < f.requiredParams then .error (.parse " function requires a  minimum of ")
    else .ok ()
  else if paramsize ≠ f.requiredParams then .error (.parse " function requires exactly ")
  else .ok ()

end MinimaFunction

/-! ## Tokens -/

/-- The token types. -/
inductive TokenType where
  | command | function | operator | value | variable | global | openBracket | closeBracket
  | true | false | functionParam
  deriving DecidableEq

/-- `ScriptToken`. -/
structure ScriptToken where
  tokenType : TokenType
  token : Text
  deriving DecidableEq

namespace ScriptTokenizer

/-- `tokensCommand`. -/
def tokensCommand : List Text :=
  ["LET", "IF", "THEN", "ELSEIF", "ELSE", "ENDIF", "RETURN", "ASSERT", "WHILE", "DO", "ENDWHILE",
    "EXEC", "MAST"].map MiniNumber.ascii

/-- `tokensNumberOperator`. -/
def tokensNumberOperator : Text := MiniNumber.ascii "+-/*%&|^~="

/-- `tokensBooleanOperator`. -/
def tokensBooleanOperator : List Text :=
  ["LT", "LTE", "GT", "GTE", "EQ", "NEQ", "XOR", "AND", "OR", "NXOR", "NAND", "NOR", "NOT",
    "NEG"].map MiniNumber.ascii

/-- `tokensEndOfWord`, less the operators of two characters, which no single character equals. -/
def tokensEndOfWord : Text := MiniNumber.ascii "+-/*%&|^~=()[]<>"

/-- A word goes on behind this character. -/
def inWord (c : Byte) : Bool := !(tokensEndOfWord.contains c || MiniNumber.isSpace c)

def isLower (c : Byte) : Bool := 97 ≤ c && c ≤ 122

def isUpper (c : Byte) : Bool := 65 ≤ c && c ≤ 90

def isHexDigit (c : Byte) : Bool := MiniNumber.isDigit c || (65 ≤ c && c ≤ 70) || (97 ≤ c && c ≤ 102)

/-- `isHex`. -/
def isHex (zWord : Text) : Bool :=
  (MiniNumber.ascii "0x").isPrefixOf zWord && !(zWord.drop 2).isEmpty && (zWord.drop 2).all isHexDigit

/-- `isVariable`. -/
def isVariable (zWord : Text) : Bool := !zWord.isEmpty && zWord.all isLower

/-- `isGlobal`. -/
def isGlobal (zWord : Text) : Bool :=
  match zWord with
  | [] => false
  | c :: rest => c == 64 && !rest.isEmpty && rest.all isUpper

/-- The token of a word. A command needs white space in front. -/
def wordToken (waslastspace : Bool) (word : Text) : Scripted ScriptToken :=
  if word ∈ tokensCommand then
    if waslastspace then .ok ⟨.command, word⟩
    else .error (.parse "Missing space before Command @ ")
  else if Value.isNumeric word || isHex word then .ok ⟨.value, word⟩
  else if (MinimaFunction.getFunction word).isSome then .ok ⟨.function, word⟩
  else if word ∈ tokensBooleanOperator then .ok ⟨.operator, word⟩
  else if word = MiniNumber.ascii "TRUE" then .ok ⟨.true, word⟩
  else if word = MiniNumber.ascii "FALSE" then .ok ⟨.false, word⟩
  else if isGlobal word then .ok ⟨.global, word⟩
  else if isVariable word then
    if 32 < word.length then .error (.parse "MAX Variable length is 32 @ ")
    else .ok ⟨.variable, word⟩
  else .error (.parse "Incorrect Token found @ ")

/-- The text in square brackets, up to the bracket that closes the first one or to the end, and what
is behind it. `sq` counts the brackets that are open. -/
def squareBrackets : ℕ → Text → Text × Text
  | _, [] => ([], [])
  | sq, c :: cs =>
    if c = 93 ∧ sq = 1 then ([c], cs)
    else
      let sq := if c = 91 then sq + 1 else if c = 93 then sq - 1 else sq
      (c :: (squareBrackets sq cs).1, (squareBrackets sq cs).2)

/-- The token at the head of a text and the text behind it. -/
def nextToken (waslastspace : Bool) (c : Byte) (cs : Text) : Scripted (ScriptToken × Text) :=
  if tokensNumberOperator.contains c then .ok (⟨.operator, [c]⟩, cs)
  else if c = 60 ∨ c = 62 then
    -- << and >>
    match cs with
    | [] => .error (.parse "Incorrect Token found @ ")
    | testchar :: rest =>
      if testchar = c then .ok (⟨.operator, [c, c]⟩, rest)
      else .error (.parse "Incorrect Token found @ ")
  else if c = 40 then .ok (⟨.openBracket, [c]⟩, cs)
  else if c = 41 then .ok (⟨.closeBracket, [c]⟩, cs)
  else if c = 91 then .ok (⟨.value, (squareBrackets 0 (c :: cs)).1⟩, (squareBrackets 0 (c :: cs)).2)
  else
    let word := (c :: cs).takeWhile inWord
    let rest := (c :: cs).dropWhile inWord
    if c = 36 then .ok (⟨.functionParam, word⟩, rest)
    else do
      let tok ← wordToken waslastspace word
      return (tok, rest)

/-- The loop of `tokenize`. The fuel bounds the number of turns. -/
def tokenizeFrom : ℕ → Bool → Text → Scripted (List ScriptToken)
  | 0, _, _ => .ok []
  | _ + 1, _, [] => .ok []
  | fuel + 1, waslastspace, c :: cs =>
    if MiniNumber.isSpace c then tokenizeFrom fuel true cs
    else do
      let (tok, rest) ← nextToken waslastspace c cs
      let tokens ← tokenizeFrom fuel false rest
      return tok :: tokens

/-- `tokenize`. -/
def tokenize (zScript : Text) : Scripted (List ScriptToken) :=
  tokenizeFrom zScript.length true zScript

/-! ## The scan goes on -/

theorem squareBrackets_length_le (sq : ℕ) (cs : Text) : (squareBrackets sq cs).2.length ≤ cs.length := by
  fun_induction squareBrackets sq cs with
  | case1 => exact le_rfl
  | case2 sq c cs h => exact Nat.le_succ _
  | case3 sq c cs h sq' ih => exact ih.trans (Nat.le_succ _)

/-- An opening bracket is passed. -/
theorem squareBrackets_length_lt (cs : Text) : (squareBrackets 0 (91 :: cs)).2.length < (91 :: cs).length := by
  have hopen : ¬ ((91 : Byte) = 93 ∧ 0 = 1) := by decide
  rw [squareBrackets, if_neg hopen]
  exact Nat.lt_succ_of_le (squareBrackets_length_le _ _)

/-- No token is an empty word. -/
theorem wordToken_nil (waslastspace : Bool) :
    wordToken waslastspace [] = .error (.parse "Incorrect Token found @ ") := by
  cases waslastspace <;> decide +kernel

theorem inWord_dollar : inWord 36 = true := by decide +kernel

/-- A word that starts is passed. -/
theorem dropWhile_length_lt {c : Byte} {cs : Text} (h : inWord c = true) :
    ((c :: cs).dropWhile inWord).length < (c :: cs).length := by
  rw [List.dropWhile_cons_of_pos h]
  exact Nat.lt_succ_of_le (List.length_dropWhile_le _ _)

/-- **Every token takes at least one character.** -/
theorem nextToken_length_lt {waslastspace : Bool} {c : Byte} {cs rest : Text} {tok : ScriptToken}
    (h : nextToken waslastspace c cs = .ok (tok, rest)) : rest.length < (c :: cs).length := by
  unfold nextToken at h
  split_ifs at h with hop hshift hopen hclose hsquare hparam
  · cases h
    exact Nat.lt_succ_self _
  · cases cs with
    | nil => cases h
    | cons testchar cs =>
      simp only at h
      split_ifs at h
      cases h
      exact Nat.lt_succ_of_lt (Nat.lt_succ_self _)
  · cases h
    exact Nat.lt_succ_self _
  · cases h
    exact Nat.lt_succ_self _
  · cases h
    rw [hsquare]
    exact squareBrackets_length_lt cs
  · cases h
    rw [hparam]
    exact dropWhile_length_lt inWord_dollar
  · by_cases hword : inWord c = true
    · cases htok : wordToken waslastspace ((c :: cs).takeWhile inWord) with
      | error e => simp only [htok, bind, Except.bind] at h; cases h
      | ok t =>
        simp only [htok, bind, Except.bind, pure, Except.pure] at h
        cases h
        exact dropWhile_length_lt hword
    · -- a character that ends words gives the empty word
      simp only [List.takeWhile_cons_of_neg hword, wordToken_nil] at h
      cases h

/-- **The fuel does not run out.** -/
theorem tokenizeFrom_of_le {fuel : ℕ} {waslastspace : Bool} {cs : Text} (h : cs.length ≤ fuel) :
    tokenizeFrom fuel waslastspace cs = tokenizeFrom cs.length waslastspace cs := by
  induction fuel using Nat.strong_induction_on generalizing waslastspace cs with
  | h fuel ih =>
    cases cs with
    | nil => cases fuel <;> rfl
    | cons c cs =>
      obtain ⟨fuel, rfl⟩ : ∃ n, fuel = n + 1 := ⟨fuel - 1, by simp at h; omega⟩
      have hcs : cs.length ≤ fuel := Nat.le_of_succ_le_succ h
      rw [tokenizeFrom, List.length_cons, tokenizeFrom]
      split_ifs with hspace
      · exact ih fuel (Nat.lt_succ_self _) hcs
      · cases hnext : nextToken waslastspace c cs with
        | error e => rfl
        | ok p =>
          obtain ⟨tok, rest⟩ := p
          have hrest : rest.length ≤ cs.length := Nat.le_of_lt_succ (nextToken_length_lt hnext)
          have hlong := @ih fuel (Nat.lt_succ_self _) false rest (hrest.trans hcs)
          have hshort := @ih cs.length (Nat.lt_succ_of_le hcs) false rest hrest
          simp only [bind, Except.bind, hlong, hshort]

example : tokenize (MiniNumber.ascii "RETURN $1 LTE 0x0F")
    = .ok [⟨.command, MiniNumber.ascii "RETURN"⟩, ⟨.functionParam, MiniNumber.ascii "$1"⟩,
      ⟨.operator, MiniNumber.ascii "LTE"⟩, ⟨.value, MiniNumber.ascii "0x0F"⟩] := by
  decide +kernel

end ScriptTokenizer

end Minima.Kissvm
