/-!
# TOML tables

The tree that a TOML document describes.  A table remembers how it came about, because only some
tables may be extended: one opened by a header is closed to dotted keys, one implied by a longer
header may still be opened, and one made by dotted keys grows by dotted keys only.

Main definitions:

- `Toml.Node`: the values and tables.
- `Toml.alter`: changing the table at the end of a path.
- `Toml.assign`, `Toml.openTable`, `Toml.appendTable`: what a line of a document does.
-/

namespace LeadScoring.Toml

/-- How a table came about. -/
inductive TableKind where
  /-- Opened by a header, or the document itself. -/
  | header
  /-- Implied by a longer header. -/
  | implied
  /-- Made by a dotted key. -/
  | dotted
  /-- Written between braces. -/
  | inlined
deriving DecidableEq, Repr

/-- A value or table.  Dates and times are recognised but carry no content. -/
inductive Node where
  | string (s : String)
  | integer (i : Int)
  | float (x : Float)
  | boolean (b : Bool)
  | moment
  | array (items : List Node)
  | table (kind : TableKind) (entries : List (String × Node))
  /-- Tables opened one after the other by the same doubled header. -/
  | tables (items : List Node)
deriving Inhabited

/-- The entries of a table. -/
abbrev Entries := List (String × Node)

namespace Entries

/-- The entry of a key. -/
def find? (key : String) : Entries → Option Node
  | [] => none
  | (k, node) :: entries => if k = key then some node else find? key entries

/-- The entries with the one of a key replaced or added at the end. -/
def put (key : String) (node : Node) : Entries → Entries
  | [] => [(key, node)]
  | (k, old) :: entries => if k = key then (k, node) :: entries else (k, old) :: put key node entries

end Entries

/-- Changes the table at the end of a path.  Missing tables are made on the way, by a dotted key
or by a header; of an array of tables the last one is meant.  A dotted key does not pass through
a table that was opened by a header or written between braces. -/
def alter (byDottedKey : Bool) (change : TableKind → Entries → Option (TableKind × Entries)) :
    List String → TableKind → Entries → Option (TableKind × Entries)
  | [], kind, entries => change kind entries
  | key :: path, kind, entries =>
    match entries.find? key with
    | none =>
      let made := if byDottedKey then TableKind.dotted else .implied
      match alter byDottedKey change path made [] with
      | some (k, es) => some (kind, entries.put key (.table k es))
      | none => none
    | some (.table k es) =>
      if k = .inlined || (byDottedKey && k = .header) then none
      else
        match alter byDottedKey change path k es with
        | some (k, es) => some (kind, entries.put key (.table k es))
        | none => none
    | some (.tables items) =>
      match items.reverse with
      | .table k es :: others =>
        match alter byDottedKey change path k es with
        | some (k, es) => some (kind, entries.put key (.tables (others.reverse ++ [.table k es])))
        | none => none
      | _ => none
    | some _ => none

/-- Gives a new key of a table its value.  The table is the one that was asked for exactly if it
was made by a dotted key or no dotted key led to it. -/
def assignHere (byDottedKey : Bool) (key : String) (value : Node) (kind : TableKind)
    (entries : Entries) : Option (TableKind × Entries) :=
  if byDottedKey && kind ≠ .dotted then none
  else if (entries.find? key).isSome then none
  else some (kind, entries.put key value)

/-- Gives a dotted key its value inside a table. -/
def assign (path : List String) (key : String) (value : Node) (kind : TableKind)
    (entries : Entries) : Option (TableKind × Entries) :=
  alter true (assignHere (!path.isEmpty) key value) path kind entries

/-- Opens a table inside its parent; one that a longer header implied is opened once. -/
def openHere (key : String) (kind : TableKind) (entries : Entries) :
    Option (TableKind × Entries) :=
  match entries.find? key with
  | none => some (kind, entries.put key (.table .header []))
  | some (.table .implied es) => some (kind, entries.put key (.table .header es))
  | some _ => none

/-- Appends a table to the array of tables inside its parent. -/
def appendHere (key : String) (kind : TableKind) (entries : Entries) :
    Option (TableKind × Entries) :=
  match entries.find? key with
  | none => some (kind, entries.put key (.tables [.table .header []]))
  | some (.tables items) => some (kind, entries.put key (.tables (items ++ [.table .header []])))
  | some _ => none

/-- The entries of a document after a change at a path. -/
def alterDocument (change : TableKind → Entries → Option (TableKind × Entries))
    (path : List String) (document : Entries) : Option Entries :=
  (alter false change path .header document).map (·.2)

/-- Opens the table of a header. -/
def openTable (path : List String) (key : String) (document : Entries) : Option Entries :=
  alterDocument (openHere key) path document

/-- Appends the table of a doubled header. -/
def appendTable (path : List String) (key : String) (document : Entries) : Option Entries :=
  alterDocument (appendHere key) path document

end LeadScoring.Toml
