import Minima.Base.NumberText

/-! # `JSONValue`, `JSONObject` and `JSONArray`

The values of the JSON library and how they are written. A text is its bytes: `escape` goes over them
one by one, and also replaces the bytes `0x7F` to `0x9F`, which in UTF-8 need not stand for a character
each.

* **`JSON`** — the values; **`JSON.WellFormed`** — the objects and integers that a C++ value can hold.
* **`JSON.writeJSONString`** — the writer. -/

namespace Minima

open MiniNumber (ascii digitsText)

/-- The floating point numbers of the C++ library: how a text is read, `stod`, and how a number is
written to a stream. -/
structure DoubleLibrary where
  Double : Type
  stod : Text → Option Double
  numberToString : Double → Text

/-- What a `std::any` of the JSON library holds: nothing or a null, a boolean, an integer of any of the
integer types, a floating point number, a string, a `JSONArray` or another collection, a `JSONObject` or
a map. The entries of an object are in the order in which they were put in. -/
inductive JSON (D : Type) where
  | null
  | bool (b : Bool)
  | long (v : ℤ)
  | double (d : D)
  | string (s : Text)
  | array (elements : List (JSON D))
  | object (entries : List (Text × JSON D))

namespace JSON

variable {D : Type}

/-- `JSONObject::put`: a key that is there keeps its place. -/
def put (entries : List (Text × JSON D)) (key : Text) (value : JSON D) : List (Text × JSON D) :=
  if key ∈ entries.map Prod.fst then
    entries.map fun entry => if entry.1 = key then (key, value) else entry
  else entries ++ [(key, value)]

theorem put_of_notMem {entries : List (Text × JSON D)} {key : Text} (h : key ∉ entries.map Prod.fst)
    (value : JSON D) : put entries key value = entries ++ [(key, value)] := if_neg h

/-! ## Writing -/

/-- The hexadecimal digits of `escape`. -/
def hexDigit (n : ℕ) : Byte := (ascii "0123456789ABCDEF").getD n 0

/-- One turn of the loop of `escape`. -/
def escapeByte (ch : Byte) : Text :=
  match ch with
  | 34 => ascii "\\\""
  | 92 => ascii "\\\\"
  | 8 => ascii "\\b"
  | 12 => ascii "\\f"
  | 10 => ascii "\\n"
  | 13 => ascii "\\r"
  | 9 => ascii "\\t"
  | 47 => ascii "\\/"
  | _ =>
    if ch ≤ 0x1F ∨ (0x7F ≤ ch ∧ ch ≤ 0x9F) then
      ascii "\\u00" ++ [hexDigit (ch.toNat / 16), hexDigit (ch.toNat % 16)]
    else [ch]

/-- `escape`. -/
def escape (s : Text) : Text := s.flatMap escapeByte

/-- `writeQuotedEscaped`. -/
def writeQuotedEscaped (s : Text) : Text := ascii "\"" ++ escape s ++ ascii "\""

/-- `integerToString`. -/
def integerToString (v : ℤ) : Text := if v < 0 then 45 :: digitsText v.natAbs else digitsText v.natAbs

section Write

variable (numberToString : D → Text)

mutual

/-- `writeJSONString`. -/
def writeJSONString : JSON D → Text
  | .null => ascii "null"
  | .bool b => if b then ascii "true" else ascii "false"
  | .long v => integerToString v
  | .double d => numberToString d
  | .string s => writeQuotedEscaped s
  | .array elements => ascii "[" ++ writeElements true elements ++ ascii "]"
  | .object entries => [123] ++ writeEntries true entries ++ [125]

/-- The loop of `JSONArray::writeJSONString`. -/
def writeElements (first : Bool) : List (JSON D) → Text
  | [] => []
  | val :: vals => (if first then [] else ascii ",") ++ writeJSONString val ++ writeElements false vals

/-- The loop of `JSONObject::writeJSONString`. -/
def writeEntries (first : Bool) : List (Text × JSON D) → Text
  | [] => []
  | (key, value) :: entries =>
    (if first then [] else ascii ",") ++ writeQuotedEscaped key ++ ascii ":" ++ writeJSONString value ++
      writeEntries false entries

end

/-- `toJSONString`. -/
def toJSONString (value : JSON D) : Text := writeJSONString numberToString value

end Write

/-! ## The values that are written and parsed -/

mutual

/-- The objects have each key once, the integers fit in one of the integer types, and there are no
floating point numbers. -/
def WellFormed : JSON D → Prop
  | .long v => -2 ^ 63 ≤ v ∧ v < 2 ^ 64
  | .double _ => False
  | .array elements => WellFormedElements elements
  | .object entries => (entries.map Prod.fst).Nodup ∧ WellFormedEntries entries
  | _ => True

/-- All elements of an array. -/
def WellFormedElements : List (JSON D) → Prop
  | [] => True
  | val :: vals => WellFormed val ∧ WellFormedElements vals

/-- All values of an object. -/
def WellFormedEntries : List (Text × JSON D) → Prop
  | [] => True
  | (_, value) :: entries => WellFormed value ∧ WellFormedEntries entries

end

end JSON

end Minima
