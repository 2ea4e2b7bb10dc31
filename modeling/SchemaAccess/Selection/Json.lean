import SchemaAccess.Json.Reader
import SchemaAccess.Selection.Basic
import SchemaAccess.Table.Json

/-!
# Selections and overrides as JSON

A field is a string and a nested entry is an object from field names to arrays of entries, so
`["id", {"posts": ["title"]}]` selects two fields.

* `Selection.toJson`, `Selection.ofJson?` — one entry as a value.
* `Selection.read` — a selection in a text.
* `readFragments`, `readHooks` — the override documents.
* `fragmentsOfJson?`, `hooksOfJson?` — overrides inside a larger document.

An entry is read completely before its shape is judged, so a text that is not JSON is refused as
such even where another shape was expected earlier in the entry.
-/

namespace SchemaAccess

namespace Selection

mutual

/-- The JSON value of an entry. -/
def toJson : Selection → Json
  | field name => .string name
  | nested branches => .object (branchesToJson branches)

/-- The JSON values of the entries of a list. -/
def listToJson : List Selection → List Json
  | [] => []
  | entry :: entries => entry.toJson :: listToJson entries

/-- The JSON values of the selections of branches. -/
def branchesToJson : List (String × List Selection) → List (String × Json)
  | [] => []
  | (name, below) :: branches => (name, .array (listToJson below)) :: branchesToJson branches

end

mutual

/-- The entry that a JSON value stands for.  Of several values for one field the last one counts,
at the place of the first. -/
def ofJson? : Json → Option Selection
  | .string name => some (field name)
  | .object entries => (branchesOfJson? [] entries).map nested
  | _ => none

/-- The entries that JSON values stand for. -/
def listOfJson? : List Json → Option (List Selection)
  | [] => some []
  | item :: items =>
    match ofJson? item, listOfJson? items with
    | some entry, some entries => some (entry :: entries)
    | _, _ => none

/-- The branches that the entries of an object stand for, added to those before them. -/
def branchesOfJson? (before : List (String × List Selection)) :
    List (String × Json) → Option (List (String × List Selection))
  | [] => some before
  | (name, .array items) :: entries =>
    match listOfJson? items with
    | some below => branchesOfJson? (Entries.insert name below before) entries
    | none => none
  | _ :: _ => none

end

/-- The JSON value of a selection. -/
def arrayOf (entries : List Selection) : Json := .array (listToJson entries)

/-- Reads one entry. -/
def reader (depth : Nat) : Json.Reader Selection := fun s =>
  match Json.Reader.value .keeping depth s with
  | .error p => .error p
  | .ok (value, rest) =>
    match ofJson? value with
    | some entry => .ok (entry, rest)
    | none => .error .mistyped

/-- Reads a selection. -/
def listReader (depth : Nat) : Json.Reader (List Selection) := Json.Reader.listOf reader depth

/-- The selection in a text. -/
def read (text : String) : Except Json.Problem (List Selection) :=
  Json.Reader.whole (listReader Json.Reader.maxDepth) text

end Selection

/-! ## Overrides -/

/-- Reads a document of fragments. -/
def fragmentsReader (depth : Nat) : Json.Reader FragmentOverrides :=
  Table.reader (Table.reader Selection.listReader) depth

/-- Reads a document of hooks. -/
def hooksReader (depth : Nat) : Json.Reader HookOverrides :=
  Table.reader (Table.reader fun _ => Json.Reader.text) depth

/-- The fragments in a text. -/
def readFragments (text : String) : Except Json.Problem FragmentOverrides :=
  Json.Reader.whole (fragmentsReader Json.Reader.maxDepth) text

/-- The hooks in a text. -/
def readHooks (text : String) : Except Json.Problem HookOverrides :=
  Json.Reader.whole (hooksReader Json.Reader.maxDepth) text

/-- The selection that an array stands for. -/
def Selection.ofArray? : Json → Option (List Selection)
  | .array items => Selection.listOfJson? items
  | _ => none

/-- The fragments that a value stands for. -/
def fragmentsOfJson? : Json → Option FragmentOverrides :=
  Table.ofJson? (Table.ofJson? Selection.ofArray?)

/-- The hooks that a value stands for. -/
def hooksOfJson? : Json → Option HookOverrides :=
  Table.ofJson? (Table.ofJson? fun value =>
    match value with
    | .string reference => some reference
    | _ => none)

end SchemaAccess
