import LeadScoring.Workspace.Basic

/-!
# Directories held in memory

A directory tree as a value, and the workspace operations as steps from one such value to the
next.  A path is walked component by component: an empty component and a dot stay, two dots go
up, and whatever is walked through has to be a directory.  Paths that leave the tree lead nowhere,
but for the null device.

Main definitions:

- `Directory`: files by place, and directories that were made.
- `Directory.walk`: the place that a path leads to.
- The instance of `Workspace` for state transformers over a directory.
-/

namespace LeadScoring

/-- The names on the way from the top of a tree to a file or directory. -/
abbrev Place := List String

/-- A directory tree with a clock that stands still.  A file's place implies the directories above
it. -/
structure Directory where
  files : List (Place × String)
  made : List Place
  time : Nat

namespace Directory

/-- The components of a path. -/
def components (path : String) : List String :=
  path.splitOn "/"

/-- The text of the file at a place. -/
def file? (d : Directory) (place : Place) : Option String :=
  d.files.lookup place

/-- Whether a place is a directory. -/
def isDirectory (d : Directory) (place : Place) : Bool :=
  place.isEmpty || d.made.contains place ||
    d.files.any fun entry => place.isPrefixOf entry.1 && place.length < entry.1.length

/-- The most bytes of a name. -/
def longestName : Nat := 255

/-- The most bytes of a path. -/
def longestPath : Nat := 4095

/-- The path of the null device, which is empty and swallows what is written to it. -/
def nullDevice : String := "/dev/null"

/-- The place that the components of a path lead to from a place. -/
def walk (d : Directory) (place : Place) : List String → Option Place
  | [] => some place
  | name :: names =>
    if !d.isDirectory place then none
    else if name = "" || name = "." then d.walk place names
    else if name = ".." then
      if place.isEmpty then none else d.walk place.dropLast names
    else if longestName < name.utf8ByteSize then none
    else d.walk (place ++ [name]) names

/-- The place of a path.  An empty path has none, and one that begins with a slash leaves the
tree. -/
def place? (d : Directory) (path : String) : Option Place :=
  if path = "" || path.startsWith "/" || longestPath < path.utf8ByteSize then none
  else d.walk [] (components path)

/-- The text of the file that a path leads to. -/
def read? (d : Directory) (path : String) : Option String :=
  if path = nullDevice then some "" else (d.place? path).bind d.file?

/-- Puts a text at a place. -/
def put (d : Directory) (place : Place) (text : String) : Directory :=
  if d.files.any fun entry => entry.1 == place then
    { d with files :=
        d.files.map fun entry => if entry.1 == place then (place, text) else entry }
  else { d with files := d.files ++ [(place, text)] }

/-- The tree with the text of a file replaced by a function of the old one. -/
def update? (d : Directory) (path : String) (f : Option String → String) : Option Directory :=
  if path = nullDevice then some d
  else
    match d.place? path with
    | some place => if d.isDirectory place then none else some (d.put place (f (d.file? place)))
    | none => none

/-- A path without slashes at its end. -/
def withoutSlashes (path : String) : String :=
  String.ofList (path.toList.reverse.dropWhile (· == '/')).reverse

/-- The tree in which a path leads to a directory, made where a name is free.  Slashes at the end
of the path do not ask for a directory to be there. -/
def make? (d : Directory) (path : String) : Option Directory :=
  match d.place? (withoutSlashes path) with
  | some place =>
    if (d.file? place).isSome then none
    else if d.isDirectory place then some d
    else some { d with made := place :: d.made }
  | none => none

/-- The step to another tree, if there is one. -/
def attempt (step : Directory → Option Directory) : StateM Directory Bool := do
  match step (← get) with
  | some d =>
    set d
    return true
  | none => return false

instance : Workspace (StateM Directory) where
  read? path := do return (← get).read? path
  makeDirectory path := attempt fun d => d.make? path
  write path text := attempt fun d => d.update? path fun _ => text
  append path text := attempt fun d => d.update? path fun old => old.getD "" ++ text
  time := do return (← get).time

end Directory

end LeadScoring
