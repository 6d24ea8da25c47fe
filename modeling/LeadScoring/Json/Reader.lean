import LeadScoring.Json.Raw
import LeadScoring.Json.Token

/-!
# Reading JSON texts

The reader consumes tokens one at a time and keeps the containers that are still open on a stack,
so depth costs no recursion.  Every token either fits what the reader expects next or refuses the
text.

Main definitions:

- `Reader.step`: one token.
- `Raw.ofTokens?`: a whole row of tokens as one value.
- `Raw.parse?`: a text as one value.
-/

namespace LeadScoring.Json

/-- A container that is still open, with its complete parts in reverse. -/
inductive Frame where
  | array (items : List Raw)
  | object (members : List (List Char × Raw))
  /-- An object that waits for the value of a key. -/
  | member (members : List (List Char × Raw)) (key : List Char)

/-- What the next token has to be. -/
inductive Expected where
  | value
  /-- A value, or the end of an array that has just been opened. -/
  | valueOrEnd
  | key
  /-- A key, or the end of an object that has just been opened. -/
  | keyOrEnd
  | colon
  /-- A comma, or the end of the innermost container. -/
  | commaOrEnd
  /-- Nothing: the value is complete. -/
  | nothing (value : Raw)

/-- The reader between two tokens: the open containers, innermost first. -/
structure Reader where
  open_ : List Frame
  expected : Expected

namespace Reader

/-- The reader before the first token. -/
def start : Reader :=
  ⟨[], .value⟩

/-- Hands a complete value to the innermost container. -/
def deliver (value : Raw) : List Frame → Option Reader
  | [] => some ⟨[], .nothing value⟩
  | .array items :: frames => some ⟨.array (value :: items) :: frames, .commaOrEnd⟩
  | .member members key :: frames => some ⟨.object ((key, value) :: members) :: frames, .commaOrEnd⟩
  | .object _ :: _ => none

/-- Closes the innermost container, an array. -/
def closeArray : List Frame → Option Reader
  | .array items :: frames => deliver (.array items.reverse) frames
  | _ => none

/-- Closes the innermost container, an object. -/
def closeObject : List Frame → Option Reader
  | .object members :: frames => deliver (.object members.reverse) frames
  | _ => none

/-- Reads a token where a value begins. -/
def beginValue (frames : List Frame) : Token → Option Reader
  | .null => deliver .null frames
  | .bool b => deliver (.bool b) frames
  | .number spelling => deliver (.number spelling) frames
  | .string spelling => deliver (.string spelling) frames
  | .openArray => some ⟨.array [] :: frames, .valueOrEnd⟩
  | .openObject => some ⟨.object [] :: frames, .keyOrEnd⟩
  | _ => none

/-- Reads a token where a key has to stand. -/
def beginMember (frames : List Frame) (t : Token) : Option Reader :=
  match t, frames with
  | .string key, .object members :: frames => some ⟨.member members key :: frames, .colon⟩
  | _, _ => none

/-- Reads one token. -/
def step (r : Reader) (t : Token) : Option Reader :=
  match r.expected with
  | .value => beginValue r.open_ t
  | .valueOrEnd =>
    match t with
    | .closeArray => closeArray r.open_
    | t => beginValue r.open_ t
  | .key => beginMember r.open_ t
  | .keyOrEnd =>
    match t with
    | .closeObject => closeObject r.open_
    | t => beginMember r.open_ t
  | .colon =>
    match t with
    | .colon => some ⟨r.open_, .value⟩
    | _ => none
  | .commaOrEnd =>
    match t, r.open_ with
    | .comma, .array _ :: _ => some ⟨r.open_, .value⟩
    | .comma, .object _ :: _ => some ⟨r.open_, .key⟩
    | .closeArray, frames => closeArray frames
    | .closeObject, frames => closeObject frames
    | _, _ => none
  | .nothing _ => none

/-- Reads a row of tokens. -/
def run (r : Reader) : List Token → Option Reader
  | [] => some r
  | t :: ts =>
    match r.step t with
    | some r => run r ts
    | none => none

/-- The value read, if it is complete. -/
def finish (r : Reader) : Option Raw :=
  match r.expected with
  | .nothing value => some value
  | _ => none

end Reader

namespace Raw

/-- The value that a whole row of tokens denotes. -/
def ofTokens? (ts : List Token) : Option Raw :=
  (Reader.start.run ts).bind Reader.finish

/-- The tree of a JSON text. -/
def parse? (text : String) : Option Raw :=
  (tokens? text.toList).bind ofTokens?

end Raw

end LeadScoring.Json
