import SchemaAccess.Command.Run

/-!
# The program

Runs the command over the disk.

* `disk` — the disk as a file store.
* `main` — the entry point.
-/

namespace SchemaAccess

/-- The fault behind an error of the system. -/
def FileFault.ofError (error : IO.Error) : FileFault :=
  match error with
  | .noFileOrDirectory _ _ _ => .notFound
  | .alreadyExists _ _ _ => .exists
  | .inappropriateType _ 20 _ => .notFolder
  | .inappropriateType _ 21 _ => .isFolder
  | .invalidArgument _ 36 _ => .tooLong
  | error => .other error.toString

/-- An action on what a path of the disk leads to, with its fault. -/
def onDisk {α : Type} (path : String) (action : String → IO α) : ExceptT FileFault IO α :=
  match FileFault.ofPath? path with
  | some fault => throw fault
  | none =>
    ExceptT.mk (try return .ok (← action path) catch error => return .error (.ofError error))

/-- The bytes of a file on the disk. -/
def bytesOnDisk (path : String) : IO ByteArray := do
  let file ← IO.FS.Handle.mk path .read
  file.readBinToEnd

/-- The disk as a file store.  A path is that of a folder if the dot below it leads somewhere. -/
def disk : FileStore IO where
  readText path := do
    match String.fromUTF8? (← onDisk path bytesOnDisk) with
    | some text => return text
    | none => throw .notText
  writeText path text := onDisk path fun path => IO.FS.writeFile path text
  makeFolder path := onDisk path fun path => IO.FS.createDir path
  isFolder path := do
    try
      let _ ← IO.FS.realPath (Path.join path ".")
      return true
    catch _ => return false

end SchemaAccess

/-- Runs the command with the arguments of the program. -/
def main (arguments : List String) : IO UInt32 := do
  let outcome ← SchemaAccess.Command.run SchemaAccess.disk arguments
  (← IO.getStdout).putStr outcome.output
  (← IO.getStderr).putStr outcome.complaint
  return outcome.status
