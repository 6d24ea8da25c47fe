import LeadScoring.CommandLine.Run
import Std.Time.DateTime.Timestamp

/-!
# The program

The workspace of the operating system, and the entry point.
-/

namespace LeadScoring

/-- Whether an action ends without an error. -/
def succeeds (action : IO Unit) : IO Bool := do
  match ← action.toBaseIO with
  | .ok _ => return true
  | .error _ => return false

/-- Appends a text to a file. -/
def appendText (path text : String) : IO Unit := do
  let handle ← IO.FS.Handle.mk path .append
  handle.putStr text

/-- Whether a path leads to a directory: there, and only there, a dot is taken. -/
def isDirectory (path : String) : IO Bool := do
  match ← (IO.FS.createDir (path ++ "/.")).toBaseIO with
  | .error (.alreadyExists ..) => return true
  | _ => return false

/-- Creates a directory, unless it is there. -/
def createDirectory (path : String) : IO Bool := do
  match ← (IO.FS.createDir path).toBaseIO with
  | .ok _ => return true
  | .error _ => isDirectory path

instance : Workspace IO where
  read? path := do
    match ← (IO.FS.readFile path).toBaseIO with
    | .ok text => return some text
    | .error _ => return none
  makeDirectory path := createDirectory path
  write path text := succeeds (IO.FS.writeFile path text)
  append path text := succeeds (appendText path text)
  time := do
    let now ← Std.Time.Timestamp.now
    return now.toNanosecondsSinceUnixEpoch.val.toNat

end LeadScoring

/-- Runs the command that the arguments describe. -/
def main (args : List String) : IO UInt32 := do
  let reply ← LeadScoring.CommandLine.respond args
  IO.print reply.output
  match reply.complaint with
  | some complaint => IO.eprintln ("Error: " ++ complaint)
  | none => pure ()
  return reply.exit
