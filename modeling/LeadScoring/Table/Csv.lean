import LeadScoring.Text

/-!
# Comma-separated tables

The reader is an automaton over characters.  Records end at a line feed, a carriage return or
both; lines without any character are skipped.  A cell is quoted only if a quote is its first
character; a doubled quote inside stands for one, and what follows the closing quote belongs to the
cell.  Every cell is trimmed at last.

A record remembers its line: one more than the number of line feeds read before its reading began,
and the reading of the record before it ended with the first character of its line end.

Main definitions:

- `Csv.Reader`, `Csv.Reader.step`: the automaton.
- `Csv.records`: the records of a text.
- `Csv.quotedTable`: a table written with quotes around all its cells.
-/

namespace LeadScoring.Csv

/-- A record of a table. -/
structure Record where
  line : Nat
  cells : List String
deriving DecidableEq, Repr

/-- Where the automaton stands inside a record. -/
inductive Mode where
  /-- Before the first character of a record. -/
  | recordStart
  /-- Before the first character of a cell. -/
  | cellStart
  | plain
  | quoted
  /-- Behind a quote inside a quoted cell. -/
  | quoteInside
deriving DecidableEq, Repr

/-- The automaton between two characters.  Lists hold what has been read in reverse. -/
structure Reader where
  mode : Mode
  cell : List Char
  cells : List String
  records : List Record
  /-- Line feeds read so far. -/
  lineFeeds : Nat
  /-- Line feeds read before the current record's reading began. -/
  recordStart : Nat
deriving DecidableEq, Repr

namespace Reader

/-- The automaton before the first character. -/
def start : Reader :=
  ⟨.recordStart, [], [], [], 0, 0⟩

/-- Ends the current cell. -/
def endCell (r : Reader) : Reader :=
  { r with
    mode := .cellStart
    cell := []
    cells := Text.trim (String.ofList r.cell.reverse) :: r.cells }

/-- Ends the current cell and its record. -/
def endRecord (r : Reader) : Reader :=
  let r := r.endCell
  { r with
    mode := .recordStart
    cells := []
    records := ⟨r.recordStart + 1, r.cells.reverse⟩ :: r.records
    recordStart := r.lineFeeds }

/-- Adds a character to the current cell. -/
def addChar (r : Reader) (c : Char) (mode : Mode) : Reader :=
  { r with mode := mode, cell := c :: r.cell }

/-- Whether a character ends records. -/
def isBreak (c : Char) : Bool :=
  c == '\n' || c == '\r'

/-- Reads a character outside of quotes. -/
def stepPlain (r : Reader) (c : Char) : Reader :=
  if c = ',' then r.endCell
  else if isBreak c then r.endRecord
  else r.addChar c .plain

/-- Reads a character at the start of a cell. -/
def stepStart (r : Reader) (c : Char) : Reader :=
  if c = '"' then { r with mode := .quoted } else r.stepPlain c

/-- Reads a character, its line feed being counted already. -/
def stepCounted (r : Reader) (c : Char) : Reader :=
  match r.mode with
  | .recordStart => if isBreak c then r else r.stepStart c
  | .cellStart => r.stepStart c
  | .plain => r.stepPlain c
  | .quoted => if c = '"' then { r with mode := .quoteInside } else r.addChar c .quoted
  | .quoteInside => if c = '"' then r.addChar c .quoted else r.stepPlain c

/-- Reads one character. -/
def step (r : Reader) (c : Char) : Reader :=
  stepCounted { r with lineFeeds := if c = '\n' then r.lineFeeds + 1 else r.lineFeeds } c

/-- The records read, the last one being ended by the end of the text. -/
def finish (r : Reader) : List Record :=
  match r.mode with
  | .recordStart => r.records.reverse
  | _ => r.endRecord.records.reverse

end Reader

/-- The text without a byte order mark at its start. -/
def dropMark : List Char → List Char
  | '\uFEFF' :: cs => cs
  | cs => cs

/-- The records of a text. -/
def records (text : String) : List Record :=
  ((dropMark text.toList).foldl Reader.step .start).finish

/-! ## Writing -/

/-- A cell between quotes, its own quotes doubled. -/
def quotedCell (cell : String) : List Char :=
  '"' :: (cell.toList.flatMap fun c => if c = '"' then ['"', '"'] else [c]) ++ ['"']

/-- A record with quotes around all its cells. -/
def quotedRecord : List String → List Char
  | [] => []
  | [cell] => quotedCell cell
  | cell :: cells => quotedCell cell ++ ',' :: quotedRecord cells

/-- A table with quotes around all its cells and a line end behind every record. -/
def quotedTable (lineEnd : List Char) (rows : List (List String)) : List Char :=
  rows.flatMap fun row => quotedRecord row ++ lineEnd

end LeadScoring.Csv
