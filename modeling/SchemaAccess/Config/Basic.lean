import SchemaAccess.Document.View
import SchemaAccess.Files.Path
import SchemaAccess.Loose.View
import SchemaAccess.Selection.Basic

/-!
# Configurations

What a user decides about a generation: which schemas are read and how, what overrides them, which
models are built and in which module format.

* `SchemaReading` — how schema texts are read; `SchemaReading.view` reads them.
* `OverrideSource` — where overrides of one kind come from.
* `Config` — a configuration; `Config.ofSchemas` decides nothing but the schemas.
* `Config.check` — refuses a configuration with an empty path.
* `Config.resolve` — a configuration with its paths relative to a folder.
-/

namespace SchemaAccess

/-! ## Reading schemas -/

/-- How schema texts are read. -/
inductive SchemaReading where
  /-- By searching for definitions, whatever surrounds them. -/
  | loose
  /-- As documents, which must be valid. -/
  | document
  deriving DecidableEq

namespace SchemaReading

/-- The name of a reading in configurations. -/
def name : SchemaReading → String
  | loose => "text"
  | document => "document"

/-- The reading of a name. -/
def ofName? : String → Option SchemaReading
  | "text" => some loose
  | "document" => some document
  | _ => none

/-- The view of two schema texts. -/
def view (reading : SchemaReading) (source build : String) : Except Error SchemaView :=
  match reading with
  | loose => .ok (Loose.view source build)
  | document => Document.viewOfTexts source build

theorem ofName?_eq_some_iff {text : String} {reading : SchemaReading} :
    ofName? text = some reading ↔ text = reading.name := by
  constructor
  · intro h
    unfold ofName? at h
    split at h <;> cases h <;> rfl
  · rintro rfl
    cases reading <;> rfl

end SchemaReading

/-! ## Configurations -/

/-- Where overrides come from. -/
inductive OverrideSource (α : Type) where
  /-- There are no overrides. -/
  | none
  /-- They are a document of their own. -/
  | file (path : String)
  /-- They are part of the configuration. -/
  | inline (overrides : α)

/-- A configuration. -/
structure Config where
  /-- The path of the schema whose annotated types are the models. -/
  sourceSchema : String
  /-- The path of the expanded schema. -/
  buildSchema : String
  fragments : OverrideSource FragmentOverrides
  hooks : OverrideSource HookOverrides
  /-- True if modules are written in the newer module format. -/
  useESM : Bool
  /-- True if the run reports its steps. -/
  debug : Bool
  /-- The models to build; if there are none, all are built. -/
  collections : List String
  reading : SchemaReading

namespace Config

/-- The configuration that decides nothing but the schemas. -/
def ofSchemas (sourceSchema buildSchema : String) : Config where
  sourceSchema := sourceSchema
  buildSchema := buildSchema
  fragments := .none
  hooks := .none
  useESM := false
  debug := false
  collections := []
  reading := .loose

end Config

/-! ## Paths -/

/-- True of overrides in a document whose path is empty. -/
def OverrideSource.hasEmptyPath {α : Type} : OverrideSource α → Bool
  | file path => path.isEmpty
  | none => false
  | inline _ => false

/-- A path in a configuration that lies in a folder.  The empty path stays empty. -/
def resolvePath (folder path : String) : String :=
  if path.isEmpty then path else Path.join folder path

/-- Overrides of a configuration that lies in a folder. -/
def OverrideSource.resolve {α : Type} (folder : String) : OverrideSource α → OverrideSource α
  | file path => file (resolvePath folder path)
  | none => none
  | inline overrides => inline overrides

namespace Config

/-- A configuration that lies in a folder, with its paths relative to that folder. -/
def resolve (config : Config) (folder : String) : Config :=
  { config with
    sourceSchema := resolvePath folder config.sourceSchema
    buildSchema := resolvePath folder config.buildSchema
    fragments := config.fragments.resolve folder
    hooks := config.hooks.resolve folder }

/-- The first fault of a configuration: an empty path where one is needed. -/
def fault? (config : Config) : Option ConfigFault :=
  if config.sourceSchema.isEmpty then some .noSourceSchema
  else if config.buildSchema.isEmpty then some .noBuildSchema
  else if config.hooks.hasEmptyPath then some (.emptyOverridesPath .hook)
  else if config.fragments.hasEmptyPath then some (.emptyOverridesPath .fragment)
  else none

/-- Refuses a configuration with a fault. -/
def check (config : Config) : Except Error Unit :=
  match config.fault? with
  | some fault => .error (.config fault)
  | none => .ok ()

end Config

end SchemaAccess
