import LeadScoring.Json.Decode
import LeadScoring.Lead.Basic

/-!
# Feedback records

Feedback about scored leads is appended to a file, one record to a line.  Lines end at a line
feed, one carriage return before it is dropped, and blank lines are skipped.

Main definitions:

- `FeedbackRecord`: the time of arrival and what was said.
- `FeedbackRecord.line`: a record as a line of the file.
- `FeedbackRecord.readAll`: the records of a file.
-/

namespace LeadScoring

open Json (Raw)

/-- One piece of feedback. -/
structure FeedbackRecord where
  /-- Milliseconds since the start of 1970. -/
  receivedAt : Nat
  payload : Value

/-- Why a feedback file cannot be read. -/
inductive FeedbackError where
  /-- A line is not UTF-8. -/
  | encoding
  /-- A line is not a record. -/
  | malformedRecord
deriving DecidableEq, Repr

namespace FeedbackRecord

/-- The record as a JSON value. -/
def toJson (r : FeedbackRecord) : Value :=
  .object [("received_at_ms", Json.ofNat r.receivedAt), ("payload", r.payload)]

/-- The line of a record with its line feed. -/
def line (r : FeedbackRecord) : String :=
  r.toJson.compact ++ "\n"

/-- The record of a tree.  The payload stands one level inside the record. -/
def ofRaw? (r : Raw) : Option FeedbackRecord :=
  match r.fields? ["received_at_ms", "payload"] 0 with
  | some [some receivedAt, some payload] =>
    match receivedAt.word? 0x10000000000000000, Json.ofRaw? (Json.nestingLimit - 1) payload with
    | some receivedAt, some payload => some ⟨receivedAt, payload⟩
    | _, _ => none
  | _ => none

/-- The record of a line. -/
def parse? (line : String) : Option FeedbackRecord :=
  (Raw.parse? line).bind ofRaw?

/-! ## Files -/

/-- The lines of a file behind the bytes of a line that has begun, which are given in reverse. -/
def splitLines (begun : List UInt8) : List UInt8 → List (List UInt8)
  | [] => if begun.isEmpty then [] else [begun.reverse]
  | b :: bytes =>
    if b = 10 then
      (match begun with
        | 13 :: begun => begun.reverse
        | begun => begun.reverse) :: splitLines [] bytes
    else splitLines (b :: begun) bytes

/-- The text of a line. -/
def decodeLine? (bytes : List UInt8) : Option String :=
  String.fromUTF8? (ByteArray.mk bytes.toArray)

/-- The records of lines, or the first reason against one of them. -/
def readLines : List (List UInt8) → Except FeedbackError (List FeedbackRecord)
  | [] => .ok []
  | bytes :: lines =>
    match decodeLine? bytes with
    | none => .error .encoding
    | some text =>
      if Text.isBlank text then readLines lines
      else
        match parse? text with
        | none => .error .malformedRecord
        | some record =>
          match readLines lines with
          | .ok records => .ok (record :: records)
          | .error e => .error e

/-- The records of a file. -/
def readAll (bytes : List UInt8) : Except FeedbackError (List FeedbackRecord) :=
  readLines (splitLines [] bytes)

end FeedbackRecord

end LeadScoring
