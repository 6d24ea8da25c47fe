/-!
# Workspaces

The files and the clock that commands work with.  Commands are written over any monad with these
operations, so that they run on a real file system as well as on a directory held in memory.
-/

namespace LeadScoring

/-- Files and a clock.  An operation that fails says so and leaves no trace. -/
class Workspace (m : Type → Type) where
  /-- The text of a file, unless it cannot be read or is no text. -/
  read? : String → m (Option String)
  /-- Creates a directory in one that exists; a directory that is there already is fine. -/
  makeDirectory : String → m Bool
  /-- Replaces the text of a file, which need not exist. -/
  write : String → String → m Bool
  /-- Appends a text to a file, which need not exist. -/
  append : String → String → m Bool
  /-- Nanoseconds since the start of 1970. -/
  time : m Nat

namespace Workspace

/-- The path of a file in a directory. -/
def join (directory file : String) : String :=
  if directory.endsWith "/" then directory ++ file else directory ++ "/" ++ file

/-- The paths of the directories above the one that a path names, from the outermost on.  Neither
an empty component nor a dot is a name. -/
def above (path : String) : List String :=
  let names := (path.splitOn "/").filter fun name => name != "" && name != "."
  let top := if path.startsWith "/" then "/" else ""
  (List.range (names.length - 1)).map fun n => top ++ String.intercalate "/" (names.take (n + 1))

/-- Creates a directory and those above it.  Since a dot is no name, a path that ends in one needs
its directory to exist. -/
def makeDirectories {m : Type → Type} [Monad m] [Workspace m] (path : String) : m Bool :=
  (above path ++ [path]).allM makeDirectory

end Workspace

end LeadScoring
