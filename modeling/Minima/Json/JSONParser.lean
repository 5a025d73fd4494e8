import Minima.Json.Yylex

/-! # `JSONParser`

The parser is a state machine over the tokens with two stacks: the status of every container that is
open, and the containers themselves. Commas and colons are skipped wherever they stand.

* **`JSONParser.step`** — what a token does in each status.
* **`JSONParser.parse`** — the loop over the tokens. -/

namespace Minima

open MiniNumber (ascii)

namespace JSONParser

/-- The statuses of the parser. `S_IN_ERROR` is also what `peekStatus` gives for an empty stack. -/
inductive Status where
  | S_INIT
  | S_IN_FINISHED_VALUE
  | S_IN_OBJECT
  | S_IN_ARRAY
  | S_PASSED_PAIR_KEY
  | S_IN_ERROR
  deriving DecidableEq

/-- What is on the value stack. The C++ stack holds containers by pointer, and a container is in its
parent from the start; here it is handed to the parent when it is closed, and until then remembers the
key that it was put under. -/
inductive StackValue (D : Type) where
  | value (v : JSON D)
  | key (k : Text)
  | object (key : Option Text) (entries : List (Text × JSON D))
  | array (key : Option Text) (elements : List (JSON D))

/-- The parser. -/
structure State (D : Type) where
  m_status : Status
  statusStack : List Status
  valueStack : List (StackValue D)

/-- `MAX_JSON_DEPTH`. -/
def MAX_JSON_DEPTH : ℕ := 128

/-- `MAX_INPUT_SIZE` of the scanner. -/
def MAX_INPUT_SIZE : ℕ := 10 * 1024 * 1024

/-- `tokenValueToAny`. -/
def tokenValueToAny {D : Type} : Yytoken.Value D → JSON D
  | .null => .null
  | .bool b => .bool b
  | .long v => .long v
  | .double d => .double d
  | .string s => .string s

/-- `peekStatus`. -/
def peekStatus (statusStack : List Status) : Status := statusStack.headD .S_IN_ERROR

section Parse

variable {D : Type}

/-- A value into the container on top of the stack: `put` under its key, or `add`. -/
def store (key : Option Text) (v : JSON D) : List (StackValue D) → Result (List (StackValue D))
  | .object slot entries :: stack =>
    match key with
    | some k => .ok (.object slot (JSON.put entries k v) :: stack)
    | none => throwException "bad any_cast"
  | .array slot elements :: stack => .ok (.array slot (elements ++ [v]) :: stack)
  | _ => throwException "bad any_cast"

/-- The container that a value of the stack is, with the key it was put under. -/
def container : StackValue D → Option (Option Text × JSON D)
  | .object key entries => some (key, .object entries)
  | .array key elements => some (key, .array elements)
  | _ => none

/-- A new container on both stacks, checked by `checkJsonDepth`. -/
def push (status : Status) (frame : StackValue D) (statusStack : List Status)
    (valueStack : List (StackValue D)) : Result (State D) :=
  if MAX_JSON_DEPTH ≤ statusStack.length then throwException "JSON nesting exceeds maximum depth"
  else .ok ⟨status, status :: statusStack, frame :: valueStack⟩

/-- The closing bracket of a container: the outermost one stays on the stack. -/
def close (p : State D) : Result (State D) :=
  match p.valueStack with
  | top :: below :: stack =>
    match container top with
    | some (key, v) => do
      let valueStack ← store key v (below :: stack)
      let statusStack := p.statusStack.tail
      return ⟨peekStatus statusStack, statusStack, valueStack⟩
    | none => throwException "bad any_cast"
  | _ => .ok { p with m_status := .S_IN_FINISHED_VALUE }

/-- The key on top of the stack, and what is below it. -/
def popKey : List (StackValue D) → Result (Text × List (StackValue D))
  | .key k :: stack => .ok (k, stack)
  | _ => throwException "bad any_cast"

/-- What a token other than the end does, by the status. -/
def step (p : State D) (token : Yytoken D) : Result (State D) :=
  match p.m_status with
  | .S_INIT =>
    match token with
    | .value v =>
      .ok ⟨.S_IN_FINISHED_VALUE, .S_IN_FINISHED_VALUE :: p.statusStack,
        .value (tokenValueToAny v) :: p.valueStack⟩
    | .leftBrace => push .S_IN_OBJECT (.object none []) p.statusStack p.valueStack
    | .leftSquare => push .S_IN_ARRAY (.array none []) p.statusStack p.valueStack
    | _ => .ok { p with m_status := .S_IN_ERROR }
  | .S_IN_FINISHED_VALUE => throwException "Unexpected token "
  | .S_IN_OBJECT =>
    match token with
    | .comma => .ok p
    | .value (.string key) =>
      .ok ⟨.S_PASSED_PAIR_KEY, .S_PASSED_PAIR_KEY :: p.statusStack, .key key :: p.valueStack⟩
    | .rightBrace => close p
    | _ => .ok { p with m_status := .S_IN_ERROR }
  | .S_PASSED_PAIR_KEY =>
    match token with
    | .colon => .ok p
    | .value v => do
      let (key, stack) ← popKey p.valueStack
      let valueStack ← store (some key) (tokenValueToAny v) stack
      let statusStack := p.statusStack.tail
      return ⟨peekStatus statusStack, statusStack, valueStack⟩
    | .leftSquare => do
      let (key, stack) ← popKey p.valueStack
      push .S_IN_ARRAY (.array (some key) []) p.statusStack.tail stack
    | .leftBrace => do
      let (key, stack) ← popKey p.valueStack
      push .S_IN_OBJECT (.object (some key) []) p.statusStack.tail stack
    | _ => .ok { p with m_status := .S_IN_ERROR }
  | .S_IN_ARRAY =>
    match token with
    | .comma => .ok p
    | .value v => do
      let valueStack ← store none (tokenValueToAny v) p.valueStack
      return { p with valueStack := valueStack }
    | .rightSquare => close p
    | .leftBrace => push .S_IN_OBJECT (.object none []) p.statusStack p.valueStack
    | .leftSquare => push .S_IN_ARRAY (.array none []) p.statusStack p.valueStack
    | _ => .ok { p with m_status := .S_IN_ERROR }
  | .S_IN_ERROR => throwException "Unexpected token "

/-- What the end of the input does: a finished value is returned, and nothing at all is the empty
value. -/
def finish (p : State D) : Result (JSON D) :=
  match p.m_status with
  | .S_INIT => .ok .null
  | .S_IN_FINISHED_VALUE =>
    match p.valueStack with
    | .value v :: _ => .ok v
    | top :: _ =>
      match container top with
      | some (_, v) => .ok v
      | none => throwException "Unexpected token "
    | [] => throwException "Unexpected token "
  | _ => throwException "Unexpected token "

end Parse

section Loop

variable (F : DoubleLibrary)

/-- The loop of `parse`. -/
def parseLoop (p : State F.Double) (y : Yylex) : Result (JSON F.Double) :=
  match _h : Yylex.yylex F y with
  | .error e => .error e
  | .ok (none, _) => finish p
  | .ok (some token, y') =>
    match step p token with
    | .error e => .error e
    | .ok p' =>
      if p'.m_status = .S_IN_ERROR then throwException "Unexpected token "
      else parseLoop p' y'
termination_by y.input.length
decreasing_by exact Yylex.length_yylex_lt F _h

/-- `JSONParser::parse` of a text. A text that is too long always ends in an exception, at the latest in
this one when the scanner refills its buffer: no value is returned before the end of the input was
seen. -/
def parse (s : Text) : Result (JSON F.Double) :=
  if MAX_INPUT_SIZE < s.length then throwException "JSON input exceeds maximum size"
  else parseLoop F ⟨.S_INIT, [], []⟩ ⟨s, .YYINITIAL, []⟩

end Loop

end JSONParser

end Minima
