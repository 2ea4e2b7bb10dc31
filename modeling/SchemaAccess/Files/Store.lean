import SchemaAccess.Error
import SchemaAccess.Files.Path

/-!
# File stores

The generator reads schemas and overrides from files and writes modules to files.  It reaches them
through four actions, so a run is the same computation on a disk and on a tree in memory.

* `FileFault.ofPath?` — the fault of a path that leads nowhere in any store.
* `FileStore` — the four actions.
* `FileStore.makeFolders` — makes a folder together with the folders above it.
* `FileStore.writeBelow` — writes a file below a root folder, making folders as needed.
-/

namespace SchemaAccess

/-- The fault of a path that the system does not follow, whatever the folders hold. -/
def FileFault.ofPath? (path : String) : Option FileFault :=
  if Path.isCutShort path then some .cutShort
  else if path.isEmpty then some .notFound
  else if Path.maxBytes < path.utf8ByteSize then some .tooLong
  else none

/-- Access to files and folders by path. -/
structure FileStore (m : Type → Type) where
  /-- The text of a file. -/
  readText : String → ExceptT FileFault m String
  /-- Gives a file, new or old, a text. -/
  writeText : String → String → ExceptT FileFault m Unit
  /-- Makes a folder in a folder that is there. -/
  makeFolder : String → ExceptT FileFault m Unit
  /-- True of the path of a folder. -/
  isFolder : String → m Bool

namespace FileStore

variable {m : Type → Type} [Monad m]

/-- Makes a folder unless it is there. -/
def ensureFolder (store : FileStore m) (path : String) : ExceptT FileFault m Unit :=
  tryCatch (store.makeFolder path) fun fault => do
    unless ← store.isFolder path do throw fault

/-- Makes a folder unless it is there, and before it the folders above it that are missing. -/
def makeFolders (store : FileStore m) (path : String) : ExceptT FileFault m Unit :=
  if path.isEmpty then return
  else tryCatch (store.ensureFolder path) fun fault =>
    match fault, _h : Path.parent? path with
    | .notFound, some parent => do
      makeFolders store parent
      store.ensureFolder path
    | fault, _ => throw fault
termination_by path.length
decreasing_by exact Path.length_lt_of_parent? _h

/-- Writes a file at a path relative to a root folder. -/
def writeBelow (store : FileStore m) (root path contents : String) : ExceptT Error m Unit := do
  let file := Path.join root path
  if let some folder := Path.parent? file then
    (store.makeFolders folder).adapt (Error.file folder)
  (store.writeText file contents).adapt (Error.file file)

end FileStore

end SchemaAccess
