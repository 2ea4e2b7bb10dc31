import SchemaAccess.Config.Basic
import SchemaAccess.Selection.Json

/-!
# Configurations as JSON

A configuration is an object from settings to values, or an array of the values in a fixed order.
Settings that are not given keep their defaults and unknown keys are passed over.

* `Config.Setting` — the settings, their keys and their order.
* `Config.readSetting` — reads the value of one setting.
* `Config.read` — the configuration in a text.

A setting must not be given twice, which is noticed as soon as its key has been read.
-/

namespace SchemaAccess.Config

/-! ## Settings -/

/-- What a configuration can set. -/
inductive Setting where
  | sourceSchema
  | buildSchema
  | fragments
  | hooks
  | useESM
  | debug
  | collections
  | reading
  deriving DecidableEq

/-- The setting of a key. -/
def Setting.ofKey? : String → Option Setting
  | "srcSchema" => some sourceSchema
  | "buildSchema" => some buildSchema
  | "fragments" => some fragments
  | "hooks" => some hooks
  | "useESM" => some useESM
  | "useEsm" => some useESM
  | "debug" => some debug
  | "collections" => some collections
  | "parser" => some reading
  | _ => none

/-- The settings in the order of an array. -/
def Setting.all : List Setting :=
  [.sourceSchema, .buildSchema, .fragments, .hooks, .useESM, .debug, .collections, .reading]

/-! ## Values of settings -/

open Json (Problem Reader)
open Json.Reader

/-- Reads overrides: nothing, the path of a document, or the overrides themselves.  The value is
read completely before its shape is judged. -/
def overrideSource {α : Type} (inline? : Json → Option α) (depth : Nat) :
    Reader (OverrideSource α) := fun s =>
  match value .keeping depth s with
  | .error p => .error p
  | .ok (.null, rest) => .ok (.none, rest)
  | .ok (.string path, rest) => .ok (.file path, rest)
  | .ok (other, rest) =>
    match inline? other with
    | some overrides => .ok (.inline overrides, rest)
    | none => .error .mistyped

/-- The reading of a name that stands in a document. -/
def namedReading (name : String) : Except Problem SchemaReading :=
  match SchemaReading.ofName? name with
  | some reading => .ok reading
  | none => .error .mistyped

/-- Reads `null`. -/
def nothing (s : List Char) : Except Problem (List Char) :=
  match skipSpace s with
  | 'n' :: rest => word ['u', 'l', 'l'] rest
  | rest => .error (mismatch rest)

/-- Reads how schemas are read: a name, or an object that maps the name to `null`. -/
def schemaReading : Reader SchemaReading := fun s =>
  match skipSpace s with
  | [] => .error .ended
  | '"' :: _ => do
    let (name, rest) ← text s
    return (← namedReading name, rest)
  | '{' :: inner => do
    let (name, rest) ← keyName .keeping (skipSpace inner)
    let reading ← namedReading name
    match skipSpace (← nothing (← colon rest)) with
    | [] => .error .ended
    | '}' :: rest => return (reading, rest)
    | _ :: _ => .error .malformed
  | _ :: _ => .error .malformed

/-- Reads the value of a setting into a configuration. -/
def readSetting (depth : Nat) (setting : Setting) (config : Config) : Reader Config := fun s =>
  match setting with
  | .sourceSchema => (text s).map fun read => ({ config with sourceSchema := read.1 }, read.2)
  | .buildSchema => (text s).map fun read => ({ config with buildSchema := read.1 }, read.2)
  | .fragments =>
    (overrideSource fragmentsOfJson? depth s).map fun read =>
      ({ config with fragments := read.1 }, read.2)
  | .hooks =>
    (overrideSource hooksOfJson? depth s).map fun read =>
      ({ config with hooks := read.1 }, read.2)
  | .useESM => (boolean s).map fun read => ({ config with useESM := read.1 }, read.2)
  | .debug => (boolean s).map fun read => ({ config with debug := read.1 }, read.2)
  | .collections =>
    (listOf (fun _ => text) depth s).map fun read =>
      ({ config with collections := read.1 }, read.2)
  | .reading => (schemaReading s).map fun read => ({ config with reading := read.1 }, read.2)

/-! ## Documents -/

/-- Passes over a value of any shape. -/
def ignored (s : List Char) : Except Problem (List Char) :=
  (value .skipping s.length s).map Prod.snd

/-- Reads an entry of a configuration.  The settings that were given before come with the
configuration. -/
def readEntry (depth : Nat) (before : Config × List Setting) : Reader (Config × List Setting) :=
  fun s => do
    let (name, rest) ← keyName .keeping s
    match Setting.ofKey? name with
    | none => return (before, ← ignored (← colon rest))
    | some setting =>
      if setting ∈ before.2 then throw .mistyped
      let (config, rest) ← readSetting depth setting before.1 (← colon rest)
      return ((config, setting :: before.2), rest)

/-- Reads the value of the next setting of an array. -/
def readNext (depth : Nat) (before : Config × List Setting) : Reader (Config × List Setting) :=
  fun s =>
    match before with
    | (_, []) => .error .malformed
    | (config, setting :: settings) =>
      (readSetting depth setting config s).map fun read => ((read.1, settings), read.2)

/-- Reads a configuration.  Its own bracket is one of those that may be open at a time. -/
def reader : Reader Config := fun s =>
  match skipSpace s with
  | '{' :: rest =>
    (foldItems '}' (readEntry (maxDepth - 1)) (ofSchemas "" "", []) rest).map fun read =>
      (read.1.1, read.2)
  | '[' :: rest =>
    (foldItems ']' (readNext (maxDepth - 1)) (ofSchemas "" "", Setting.all) rest).map fun read =>
      (read.1.1, read.2)
  | rest => .error (mismatch rest)

/-- The configuration in a text. -/
def read (document : String) : Except Problem Config := whole reader document

end SchemaAccess.Config
