import LeadScoring.Decimal.Numeral
import LeadScoring.Forest.Config

/-!
# Words of a command line

Options have long names and sometimes a letter.  A value follows its option as the next word, or
within the same word behind an equals sign or directly behind the letter; a word that begins like
an option is never taken as the value of the word before.  Letters without values may share a
word, no option may be given twice, and two dashes end the options.

Words are read from left to right, and the first one that is wrong or makes a request ends the
reading: a request counts only if nothing before it is wrong.

Main definitions:

- `ValueKind` and `OptionValue`: what an option's value may be, and the value as it is read.
- `OptionForm`: an option that a command knows.
- `Given`: what was given.
- `Given.read`: the reading of a row of words.
-/

namespace LeadScoring.CommandLine

/-! ## Values -/

/-- What the value of an option has to be. -/
inductive ValueKind where
  /-- A text that is not empty. -/
  | path
  | count
  | features
  | number
deriving DecidableEq, Repr

/-- A value of an option. -/
inductive OptionValue where
  | path (text : String)
  | count (n : Nat)
  | features (choice : MaxFeatures)
  | number (x : Float)
deriving Repr

/-- The value that a text gives to an option. -/
def ValueKind.read? (kind : ValueKind) (text : String) : Option OptionValue :=
  match kind with
  | path => if text = "" then none else some (.path text)
  | count => (parseWord? text).map .count
  | features => (MaxFeatures.parse? text).map .features
  | number => (Numeral.readFloat? text).map .number

/-! ## Options -/

/-- What an option is for. -/
inductive OptionUse where
  | value (kind : ValueKind)
  | switch
  /-- Answers at once, whatever follows. -/
  | request
deriving DecidableEq, Repr

/-- An option that a command knows. -/
structure OptionForm where
  name : String
  letter : Option Char
  use : OptionUse
deriving DecidableEq, Repr

/-! ## Errors -/

/-- Why a command line is not understood. -/
inductive UsageError where
  | unknownOption (word : String)
  | missingValue (option : String)
  | unneededValue (option : String)
  | repeated (option : String)
  | invalidValue (option value : String)
  | missingOption (option : String)
  | missingOperand (name : String)
  | unexpectedOperand (word : String)
  | missingCommand
  | unknownCommand (word : String)
deriving DecidableEq, Repr

namespace UsageError

/-- The error in words. -/
def message : UsageError → String
  | unknownOption word => "unexpected argument '" ++ word ++ "' found"
  | missingValue option => "a value is required for '--" ++ option ++ "'"
  | unneededValue option => "unexpected value for '--" ++ option ++ "'"
  | repeated option => "the argument '--" ++ option ++ "' cannot be used multiple times"
  | invalidValue option value => "invalid value '" ++ value ++ "' for '--" ++ option ++ "'"
  | missingOption option => "the argument '--" ++ option ++ "' was not provided"
  | missingOperand name => "the argument '" ++ name ++ "' was not provided"
  | unexpectedOperand word => "unexpected argument '" ++ word ++ "' found"
  | missingCommand => "a command is required"
  | unknownCommand word => "unrecognized command '" ++ word ++ "'"

end UsageError

/-- What ends the reading of a command line early. -/
inductive Stop where
  | refused (error : UsageError)
  | requested (option : String)
deriving DecidableEq, Repr

/-- A refusal of the command line. -/
def refuse {β : Type} (error : UsageError) : Except Stop β :=
  .error (.refused error)

/-! ## Reading -/

/-- Options with their values, switches, and the words outside of options. -/
structure Given where
  options : List (String × OptionValue) := []
  switches : List String := []
  operands : List String := []
deriving Repr

namespace Given

/-- Whether an option is given. -/
def has (g : Given) (name : String) : Bool :=
  g.switches.contains name || (g.options.lookup name).isSome

/-- The value of an option for a path. -/
def path? (g : Given) (name : String) : Option String :=
  match g.options.lookup name with
  | some (.path text) => some text
  | _ => none

/-- The value of an option for a count. -/
def count? (g : Given) (name : String) : Option Nat :=
  match g.options.lookup name with
  | some (.count n) => some n
  | _ => none

/-- The value of an option for a choice of features. -/
def features? (g : Given) (name : String) : Option MaxFeatures :=
  match g.options.lookup name with
  | some (.features choice) => some choice
  | _ => none

/-- The value of an option for a number. -/
def number? (g : Given) (name : String) : Option Float :=
  match g.options.lookup name with
  | some (.number x) => some x
  | _ => none

/-- Adds an option that is not there yet with the value that a text gives it. -/
def addValue (g : Given) (name : String) (kind : ValueKind) (text : String) :
    Except Stop Given :=
  if g.has name then refuse (.repeated name)
  else
    match kind.read? text with
    | some value => .ok { g with options := (name, value) :: g.options }
    | none => refuse (.invalidValue name text)

/-- Adds a switch that is not there yet. -/
def addSwitch (g : Given) (name : String) : Except Stop Given :=
  if g.has name then refuse (.repeated name)
  else .ok { g with switches := name :: g.switches }

/-- Adds a word outside of options, of which there may be up to `limit`. -/
def addOperand (limit : Nat) (g : Given) (word : String) : Except Stop Given :=
  if g.operands.length < limit then .ok { g with operands := g.operands ++ [word] }
  else refuse (.unexpectedOperand word)

/-- Whether a word begins like an option; a single dash does not. -/
def looksLikeOption (word : String) : Bool :=
  match word.toList with
  | '-' :: _ :: _ => true
  | _ => false

/-- The part before the first equals sign and what stands behind it. -/
def splitEquals : List Char → List Char × Option (List Char)
  | [] => ([], none)
  | '=' :: cs => ([], some cs)
  | c :: cs =>
    let (name, value) := splitEquals cs
    (c :: name, value)

/-- An option that still lacks its value, which the next word may give. -/
abbrev Pending := Option (String × ValueKind)

/-- Reads a long option. -/
def readLong (forms : List OptionForm) (g : Given) (cs : List Char) :
    Except Stop (Given × Pending) :=
  let (name, value) := splitEquals cs
  match forms.find? fun form => form.name = String.ofList name with
  | none => refuse (.unknownOption (String.ofList ('-' :: '-' :: cs)))
  | some form =>
    match form.use, value with
    | .value kind, some value =>
      (g.addValue form.name kind (String.ofList value)).map fun g => (g, none)
    | .value kind, none => .ok (g, some (form.name, kind))
    | _, some _ => refuse (.unneededValue form.name)
    | .switch, none => (g.addSwitch form.name).map fun g => (g, none)
    | .request, none => .error (.requested form.name)

/-- The value that stands behind an option's letter, where an equals sign may come first. -/
def attached : List Char → List Char
  | '=' :: value => value
  | value => value

/-- Reads the letters of a word. -/
def readLetters (forms : List OptionForm) (g : Given) : List Char → Except Stop (Given × Pending)
  | [] => .ok (g, none)
  | c :: cs =>
    match forms.find? fun form => form.letter = some c with
    | none => refuse (.unknownOption (String.ofList ['-', c]))
    | some form =>
      match form.use with
      | .value kind =>
        if cs.isEmpty then .ok (g, some (form.name, kind))
        else
          (g.addValue form.name kind (String.ofList (attached cs))).map fun g => (g, none)
      | .switch =>
        match g.addSwitch form.name with
        | .error stop => .error stop
        | .ok g => readLetters forms g cs
      | .request => .error (.requested form.name)

/-- Reads a word that begins like an option. -/
def readOption (forms : List OptionForm) (g : Given) (word : String) :
    Except Stop (Given × Pending) :=
  match word.toList with
  | '-' :: '-' :: cs => readLong forms g cs
  | _ :: cs => readLetters forms g cs
  | [] => .ok (g, none)

/-- Reads the words of a command behind those that gave `g` and `pending`. -/
def readFrom (forms : List OptionForm) (limit : Nat) (pending : Pending) (g : Given) :
    List String → Except Stop Given
  | [] =>
    match pending with
    | some (name, _) => refuse (.missingValue name)
    | none => .ok g
  | word :: words =>
    match pending with
    | some (name, kind) =>
      if looksLikeOption word then refuse (.missingValue name)
      else (g.addValue name kind word).bind fun g => readFrom forms limit none g words
    | none =>
      if word = "--" then words.foldlM (addOperand limit) g
      else if looksLikeOption word then
        (readOption forms g word).bind fun (g, pending) => readFrom forms limit pending g words
      else (addOperand limit g word).bind fun g => readFrom forms limit none g words

/-- Reads the words of a command that knows some options and up to `limit` words outside of
options. -/
def read (forms : List OptionForm) (limit : Nat) (words : List String) : Except Stop Given :=
  readFrom forms limit none {} words

end Given

end LeadScoring.CommandLine
