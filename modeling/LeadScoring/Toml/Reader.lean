import LeadScoring.Toml.Quoted
import LeadScoring.Toml.Word

/-!
# Reading TOML documents

A document is read line by line: blank lines and comments, headers that open a table, and keys
with their values.  Arrays may span lines, tables between braces may not.

Main definitions:

- `Toml.readValue`: a value at the start of a text.
- `Toml.parse?`: the entries of a document.
-/

namespace LeadScoring.Toml

/-! ## Between values -/

/-- The text without blanks at its start. -/
def skipBlanks (cs : List Char) : List Char :=
  cs.dropWhile fun c => c == ' ' || c == '\t'

/-- The text behind a comment, if one stands at its start. -/
def skipComment : List Char → List Char
  | '#' :: rest => rest.dropWhile isPrintable
  | cs => cs

/-- The text behind the end of a line with its blanks and comment. -/
def lineEnd? (cs : List Char) : Option (List Char) :=
  match skipComment (skipBlanks cs) with
  | [] => some []
  | '\n' :: rest => some rest
  | '\r' :: '\n' :: rest => some rest
  | _ => none

/-- The text behind blanks, line ends and comments; `inComment` says that one is going on. -/
def skipLines (inComment : Bool) : List Char → List Char
  | '\n' :: rest => skipLines false rest
  | '\r' :: '\n' :: rest => skipLines false rest
  | '#' :: rest => skipLines true rest
  | c :: rest =>
    if inComment then if isPrintable c then skipLines true rest else c :: rest
    else if c = ' ' || c = '\t' then skipLines false rest
    else c :: rest
  | [] => []

/-! ## Keys -/

/-- Whether a character may stand in a key without quotes. -/
def isBareKeyChar (c : Char) : Bool :=
  c.isAlphanum || c == '_' || c == '-'

/-- A single key at the start of a text. -/
def readSimpleKey (cs : List Char) : Option (String × List Char) :=
  match cs with
  | '"' :: rest => (readBasic rest).map fun (key, rest) => (String.ofList key, rest)
  | '\'' :: rest => (readLiteral rest).map fun (key, rest) => (String.ofList key, rest)
  | cs =>
    match cs.takeWhile isBareKeyChar with
    | [] => none
    | key => some (String.ofList key, cs.dropWhile isBareKeyChar)

/-- Keys and arrays nest and chain below this number. -/
def depthLimit : Nat := 80

/-- A key with its dots, of at most `parts` parts: the path of tables and the last part. -/
def readKey : Nat → List Char → Option (List String × String × List Char)
  | 0, _ => none
  | parts + 1, cs =>
    match readSimpleKey (skipBlanks cs) with
    | none => none
    | some (key, rest) =>
      match skipBlanks rest with
      | '.' :: rest =>
        match readKey parts rest with
        | some (path, last, rest) => some (key :: path, last, rest)
        | none => none
      | rest => some ([], key, rest)

/-! ## Values -/

/-- Whether a character may stand in a word. -/
def isWordChar (c : Char) : Bool :=
  c.isAlphanum || c == '_' || c == '-' || c == '+' || c == '.' || c == ':'

/-- A word at the start of a text.  A date may be followed by a blank and a time of day. -/
def readWord (cs : List Char) : Option (Node × List Char) :=
  let word := cs.takeWhile isWordChar
  let rest := cs.dropWhile isWordChar
  match rest with
  | ' ' :: more =>
    let time := more.takeWhile isWordChar
    if isDate word && isTimeWithOffset time then some (.moment, more.dropWhile isWordChar)
    else (ofWord? word).map fun node => (node, rest)
  | rest => (ofWord? word).map fun node => (node, rest)

mutual

/-- A value at the start of a text, with at most `levels` arrays and tables inside each other.
The first bound limits the steps taken. -/
def readValue : Nat → Nat → List Char → Option (Node × List Char)
  | 0, _, _ => none
  | steps + 1, levels, cs =>
    match cs with
    | '"' :: _ => (readString cs).map fun (s, rest) => (.string (String.ofList s), rest)
    | '\'' :: _ => (readString cs).map fun (s, rest) => (.string (String.ofList s), rest)
    | '[' :: rest =>
      match levels with
      | 0 => none
      | levels + 1 =>
        (readItems steps levels rest).map fun (items, rest) => (.array items, rest)
    | '{' :: rest =>
      match levels with
      | 0 => none
      | levels + 1 =>
        match skipBlanks rest with
        | '}' :: rest => some (.table .inlined [], rest)
        | rest =>
          (readMembers steps levels .inlined [] rest).map fun (entries, rest) =>
            (.table .inlined entries, rest)
    | cs => readWord cs

/-- The items of an array up to its closing bracket. -/
def readItems : Nat → Nat → List Char → Option (List Node × List Char)
  | 0, _, _ => none
  | steps + 1, levels, cs =>
    match skipLines false cs with
    | ']' :: rest => some ([], rest)
    | cs =>
      match readValue steps levels cs with
      | none => none
      | some (item, rest) =>
        match skipLines false rest with
        | ']' :: rest => some ([item], rest)
        | ',' :: rest =>
          (readItems steps levels rest).map fun (items, rest) => (item :: items, rest)
        | _ => none

/-- The members of a table between braces up to its closing one, added to those before. -/
def readMembers : Nat → Nat → TableKind → Entries → List Char → Option (Entries × List Char)
  | 0, _, _, _, _ => none
  | steps + 1, levels, kind, entries, cs =>
    match readKey (depthLimit - 1) cs with
    | some (path, key, '=' :: rest) =>
      match readValue steps levels (skipBlanks rest) with
      | none => none
      | some (value, rest) =>
        match assign path key value kind entries with
        | none => none
        | some (kind, entries) =>
          match skipBlanks rest with
          | '}' :: rest => some (entries, rest)
          | ',' :: rest => readMembers steps levels kind entries rest
          | _ => none
    | _ => none

end

/-! ## Documents -/

/-- The document so far and the path of the table that is open. -/
structure Document where
  entries : Entries
  path : List String

/-- Reads a header behind its bracket. -/
def readHeader (doc : Document) (cs : List Char) : Option (Document × List Char) :=
  let (isArray, cs) :=
    match cs with
    | '[' :: cs => (true, cs)
    | cs => (false, cs)
  match readKey (depthLimit - 1) cs with
  | none => none
  | some (path, key, rest) =>
    let behind :=
      match isArray, rest with
      | true, ']' :: ']' :: rest => lineEnd? rest
      | false, ']' :: rest => lineEnd? rest
      | _, _ => none
    let entries :=
      if isArray then appendTable path key doc.entries else openTable path key doc.entries
    match behind, entries with
    | some rest, some entries => some (⟨entries, path ++ [key]⟩, rest)
    | _, _ => none

/-- Reads a key with its value up to the end of the line. -/
def readAssignment (doc : Document) (cs : List Char) : Option (Document × List Char) :=
  match readKey (depthLimit - 1) cs with
  | some (path, key, '=' :: rest) =>
    match readValue (2 * rest.length + 2) (depthLimit - 1) (skipBlanks rest) with
    | none => none
    | some (value, rest) =>
      match lineEnd? rest, alterDocument (assign path key value) doc.path doc.entries with
      | some rest, some entries => some (⟨entries, doc.path⟩, rest)
      | _, _ => none
  | _ => none

/-- Reads line after line; every line has at least one character. -/
def readLines : Nat → Document → List Char → Option Document
  | 0, doc, cs => if cs.isEmpty then some doc else none
  | lines + 1, doc, cs =>
    match skipBlanks cs with
    | [] => some doc
    | '[' :: rest => (readHeader doc rest).bind fun (doc, rest) => readLines lines doc rest
    | c :: rest =>
      if c = '\n' || c = '\r' || c = '#' then
        (lineEnd? (c :: rest)).bind fun rest => readLines lines doc rest
      else (readAssignment doc (c :: rest)).bind fun (doc, rest) => readLines lines doc rest

/-- The entries of a document.  A byte order mark at its start is skipped. -/
def parse? (text : String) : Option Entries :=
  let cs :=
    match text.toList with
    | '\uFEFF' :: cs => cs
    | cs => cs
  (readLines cs.length ⟨[], []⟩ cs).map (·.entries)

end LeadScoring.Toml
