import SchemaAccess.Document.Position
import SchemaAccess.Json.Reader
import SchemaAccess.Warning

/-!
# Errors

Everything that ends a generation, as causes, with one function that words them.

* `FileFault` — why a file cannot be read or written.
* `ConfigFault` — what is wrong with a configuration or an override.
* `Error` — any of these, or an error of the schemas or of a renderer.
* `Error.message`, `Error.isSchemaError` — the wording, and whether the schemas are to blame.
-/

namespace SchemaAccess

/-- Why a file cannot be read or written. -/
inductive FileFault where
  | notFound
  | exists
  | notFolder
  | isFolder
  | notText
  /-- A component of the path, or the whole of it, is longer than paths can be. -/
  | tooLong
  /-- The path holds a character that ends texts for the system. -/
  | cutShort
  /-- Any other fault, in the system's words. -/
  | other (text : String)
  deriving DecidableEq

/-- The system's words for a fault. -/
def FileFault.message : FileFault → String
  | notFound => "No such file or directory (os error 2)"
  | «exists» => "File exists (os error 17)"
  | notFolder => "Not a directory (os error 20)"
  | isFolder => "Is a directory (os error 21)"
  | notText => "stream did not contain valid UTF-8"
  | tooLong => "File name too long (os error 36)"
  | cutShort => "file name contained an unexpected NUL byte"
  | other text => text

/-- What is wrong with a configuration or an override. -/
inductive ConfigFault where
  | unknownParser (name : String)
  | undeclaredCollection (name : String)
  | emptyHookName (model : String)
  | emptyHookReference (hook model : String)
  | modelNotBuilt (model : String)
  | noSourceSchema
  | noBuildSchema
  | emptyOverridesPath (kind : OverrideKind)
  | unreadableOverrides (kind : OverrideKind) (path : String) (fault : FileFault)
  | malformedOverrides (kind : OverrideKind) (path : String)
  /-- An output was not accepted, in the words of its writer. -/
  | refusedOutput (text : String)
  deriving DecidableEq

/-- The wording of a fault of the configuration. -/
def ConfigFault.message : ConfigFault → String
  | unknownParser name => "unknown parser: " ++ name ++ ". must be text or document"
  | undeclaredCollection name => "collection " ++ name ++ " is not a model in the source schema"
  | emptyHookName model => "empty hook name on model " ++ model
  | emptyHookReference hook model =>
    "hook " ++ hook ++ " on model " ++ model ++ " has an empty reference"
  | modelNotBuilt model => "no model named " ++ model ++ " in the build set"
  | noSourceSchema => "srcSchema is required"
  | noBuildSchema => "buildSchema is required"
  | emptyOverridesPath kind => kind.plural ++ " path cannot be empty"
  | unreadableOverrides kind path fault =>
    "cannot read " ++ kind.plural ++ " file " ++ path ++ ": " ++ fault.message
  | malformedOverrides kind path => "invalid " ++ kind.plural ++ " file " ++ path
  | refusedOutput text => text

/-- The two schemas of a generation. -/
inductive SchemaRole where
  /-- The schema whose annotated types are the models. -/
  | source
  /-- The expanded schema with all fields and operations. -/
  | build
  deriving DecidableEq

/-- The name of a schema in messages. -/
def SchemaRole.name : SchemaRole → String
  | source => "source schema"
  | build => "build schema"

/-- What ends a generation. -/
inductive Error where
  | config (fault : ConfigFault)
  | file (path : String) (fault : FileFault)
  | json (problem : Json.Problem)
  /-- A schema is not a valid document; the position is that of the token that does not fit. -/
  | schemaText (schema : SchemaRole) (position : Document.Position)
  | missingModel (model : String)
  | unknownFields (model fragment : String) (fields : List String)
  | unknownKind (kind : String)
  | rendering (template text : String)
  deriving DecidableEq

namespace Error

/-- The wording of an error. -/
def message : Error → String
  | config fault => "config error: " ++ fault.message
  | file path fault => "io error: " ++ path ++ ": " ++ fault.message
  | json _ => "json error"
  | schemaText schema _ => "schema parse error: " ++ schema.name
  | missingModel model => "could not find model " ++ model ++ " in build schema"
  | unknownFields model fragment fields =>
    "fragment " ++ fragment ++ " on model " ++ model ++ " references unknown fields: " ++
      ", ".intercalate fields
  | unknownKind kind => "invalid query kind: " ++ kind
  | rendering template text => "render error in template " ++ template ++ ": " ++ text

/-- True if the schemas or what is asked of them are to blame, not configuration or files. -/
def isSchemaError : Error → Bool
  | schemaText _ _ | missingModel _ | unknownFields _ _ _ | unknownKind _ => true
  | config _ | file _ _ | json _ | rendering _ _ => false

end Error

end SchemaAccess
