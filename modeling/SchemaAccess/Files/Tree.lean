import SchemaAccess.Files.Store
import SchemaAccess.Table.Basic
import SchemaAccess.Text.Affix
import SchemaAccess.Text.Blank

/-!
# File trees

A tree of files and folders in memory.  Paths are followed component by component from the folder
at the top: an empty component or a dot stays where it is, two dots go up, and everything but the
last component must be a folder.  A tree knows nothing of what lies outside its top folder, where
every name is missing.

* `FileTree`, `FileTree.Place` — a tree, and where a path can lead.
* `FileTree.find` — follows a path.
* `FileTree.readText`, `FileTree.write`, `FileTree.makeFolder`, `FileTree.isFolder` — what a store
  does, on a tree.
* `FileTree.store` — trees as file stores.
* `FileTree.filesBelow` — all files below a folder.

`FileTree.readText_write` says that a text that was written to a file is read back from it.
-/

namespace SchemaAccess

/-- What has a name in a tree. -/
inductive FileTree.Entry where
  | file (contents : ByteArray)
  | folder

/-- Files and folders by their place below the top folder. -/
structure FileTree where
  /-- The entries by path, with single slashes between the components. -/
  entries : Table FileTree.Entry

namespace FileTree

/-- The tree in which the top folder is empty. -/
def empty : FileTree := ⟨Table.empty⟩

/-! ## Places -/

/-- Where a path can lead. -/
inductive Place where
  /-- The names from the place up to the top folder. -/
  | inside (names : List String)
  /-- Above or beside the top folder. -/
  | outside

/-- The path of names that go up to the top folder. -/
def pathOf (names : List String) : String := "/".intercalate names.reverse

/-- What is at a place. -/
def get? (tree : FileTree) : Place → Option Entry
  | .inside [] => some .folder
  | .inside names => tree.entries.get? (pathOf names)
  | .outside => some .folder

/-- Goes from a folder to one of its names. -/
def Place.child (place : Place) (name : String) : Except FileFault Place :=
  match place with
  | .inside names =>
    if Path.maxNameBytes < name.utf8ByteSize then .error .tooLong
    else .ok (.inside (name :: names))
  | .outside => .error .notFound

/-- The folder around a place. -/
def Place.parent : Place → Place
  | .inside (_ :: names) => .inside names
  | .inside [] => .outside
  | .outside => .outside

/-- Follows one component of a path. -/
def step (tree : FileTree) (place : Place) (component : String) : Except FileFault Place :=
  match tree.get? place with
  | none => .error .notFound
  | some (.file _) => .error .notFolder
  | some .folder =>
    match component with
    | "" => .ok place
    | "." => .ok place
    | ".." => .ok place.parent
    | name => place.child name

/-- The components of a path, trivial ones included. -/
def components (path : String) : List String :=
  (Text.splitWhere (· = '/') path.toList).map String.ofList

/-- The place that a path leads to, whether anything is there or not. -/
def find (tree : FileTree) (path : String) : Except FileFault Place :=
  match FileFault.ofPath? path with
  | some fault => .error fault
  | none =>
    (components path).foldlM tree.step (if Path.isAbsolute path then .outside else .inside [])

/-! ## Reading and writing -/

/-- The text of a file. -/
def readText (tree : FileTree) (path : String) : Except FileFault String := do
  match tree.get? (← tree.find path) with
  | none => throw .notFound
  | some .folder => throw .isFolder
  | some (.file contents) =>
    match String.fromUTF8? contents with
    | some text => return text
    | none => throw .notText

/-- Puts an entry at a place. -/
def put (tree : FileTree) (place : Place) (entry : Entry) : FileTree :=
  match place with
  | .inside names => ⟨tree.entries.insert (pathOf names) entry⟩
  | .outside => tree

/-- Gives a file, new or old, contents. -/
def write (tree : FileTree) (path : String) (contents : ByteArray) :
    Except FileFault FileTree := do
  let place ← tree.find path
  match tree.get? place with
  | some .folder => throw .isFolder
  | _ => return tree.put place (.file contents)

/-- Makes a folder in a folder that is there.  Slashes at the end of its path do not count. -/
def makeFolder (tree : FileTree) (path : String) : Except FileFault FileTree := do
  let place ← tree.find (String.ofList (Text.trimEndWhere (· == '/') path.toList))
  match tree.get? place with
  | some _ => throw .exists
  | none => return tree.put place .folder

/-- True of the path of a folder. -/
def isFolder (tree : FileTree) (path : String) : Bool :=
  match (tree.find path).map tree.get? with
  | .ok (some .folder) => true
  | _ => false

/-! ## What is written is read -/

/-- Writing a file leaves the folders as they are. -/
theorem get?_put_of_folder {tree : FileTree} {place other : Place} {contents : ByteArray}
    (hp : tree.get? place ≠ some .folder) (ho : tree.get? other = some .folder) :
    (tree.put place (.file contents)).get? other = some .folder := by
  rcases place with names | _
  · rcases other with (_ | ⟨name, rest⟩) | _
    · rfl
    · rcases names with _ | ⟨first, more⟩
      · exact absurd rfl hp
      · simp only [get?, put, Table.get?_insert] at hp ho ⊢
        split
        · next h => rw [h] at hp; exact absurd ho hp
        · exact ho
    · rfl
  · exact ho

theorem step_put {tree : FileTree} {place current next : Place} {contents : ByteArray}
    {component : String} (hp : tree.get? place ≠ some .folder)
    (hs : tree.step current component = .ok next) :
    (tree.put place (.file contents)).step current component = .ok next := by
  unfold step at hs ⊢
  split at hs
  · simp at hs
  · simp at hs
  · next h =>
    rw [get?_put_of_folder hp h]
    exact hs

theorem foldlM_step_put {tree : FileTree} {place : Place} {contents : ByteArray}
    (hp : tree.get? place ≠ some .folder) (path : List String) (start next : Place)
    (hs : path.foldlM tree.step start = .ok next) :
    path.foldlM (tree.put place (.file contents)).step start = .ok next := by
  induction path generalizing start with
  | nil => exact hs
  | cons component rest ih =>
    rw [List.foldlM_cons] at hs ⊢
    cases h : tree.step start component with
    | error fault => rw [h] at hs; cases hs
    | ok middle =>
      rw [h] at hs
      rw [step_put hp h]
      exact ih middle hs

/-- Writing a file changes the way to no place. -/
theorem find_put {tree : FileTree} {place next : Place} {contents : ByteArray} {path : String}
    (hp : tree.get? place ≠ some .folder) (hf : tree.find path = .ok next) :
    (tree.put place (.file contents)).find path = .ok next := by
  unfold find at hf ⊢
  split at hf
  · simp at hf
  · exact foldlM_step_put hp _ _ _ hf

theorem get?_put_self {tree : FileTree} {place : Place} {contents : ByteArray}
    (hp : tree.get? place ≠ some .folder) :
    (tree.put place (.file contents)).get? place = some (.file contents) := by
  rcases place with (_ | ⟨name, rest⟩) | _
  · exact absurd rfl hp
  · simp [get?, put, Table.get?_insert]
  · exact absurd rfl hp

/-- A text that was written to a file is read back from it. -/
theorem readText_write {tree written : FileTree} {path text : String}
    (h : tree.write path text.toUTF8 = .ok written) : written.readText path = .ok text := by
  unfold write at h
  cases hf : tree.find path with
  | error fault => rw [hf] at h; cases h
  | ok place =>
    rw [hf] at h
    have hp : tree.get? place ≠ some .folder := by
      intro hp
      simp [bind, Except.bind, hp] at h
    have hw : written = tree.put place (.file text.toUTF8) := by
      simp only [bind, Except.bind] at h
      exact (Except.ok.inj h).symm
    have hv : text.toByteArray.IsValidUTF8 := text.isValidUTF8
    rw [hw, readText, find_put hp hf]
    simp [bind, Except.bind, get?_put_self hp, String.fromUTF8?, pure, Except.pure, hv,
      String.fromUTF8]

/-! ## Trees as stores -/

/-- Replaces the tree by a changed one, if the change is possible. -/
def change (f : FileTree → Except FileFault FileTree) : ExceptT FileFault (StateM FileTree) Unit :=
  fun tree =>
    match f tree with
    | .ok changed => (.ok (), changed)
    | .error fault => (.error fault, tree)

/-- Trees as file stores. -/
def store : FileStore (StateM FileTree) where
  readText path := ExceptT.mk fun tree => (tree.readText path, tree)
  writeText path text := change (·.write path text.toUTF8)
  makeFolder path := change (·.makeFolder path)
  isFolder path := fun tree => (tree.isFolder path, tree)

/-! ## Listing -/

/-- The path from a folder to an entry below it. -/
def below? (folder : List String) (path : String) : Option String :=
  if folder.isEmpty then some path
  else (Text.dropFront? (pathOf folder ++ "/").toList path.toList).map String.ofList

/-- The files below a folder by path, the path of the folder in front; none if it is no folder. -/
def filesBelow (tree : FileTree) (path : String) : List (String × ByteArray) :=
  match tree.isFolder path, tree.find path with
  | true, .ok (.inside folder) =>
    let files := tree.entries.entries.filterMap fun (name, entry) =>
      match below? folder name, entry with
      | some rest, .file contents => some (Path.join path rest, contents)
      | _, _ => none
    files.mergeSort fun a b => a.1 ≤ b.1
  | _, _ => []

end FileTree

end SchemaAccess
