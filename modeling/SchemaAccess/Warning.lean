/-!
# Warnings

What a generation leaves out without failing: operations that return no model, selections below a
model that is not built, overrides for such a model.  `Warning.message` is the text for readers.
-/

namespace SchemaAccess

/-- The two types whose fields are the operations of a schema. -/
inductive OperationRoot where
  | query
  | mutation
  deriving DecidableEq

/-- The name of the type that holds the operations, unless the schema names another. -/
def OperationRoot.typeName : OperationRoot → String
  | query => "Query"
  | mutation => "Mutation"

/-- The two kinds of overrides a user may supply for a model. -/
inductive OverrideKind where
  | fragment
  | hook
  deriving DecidableEq

/-- The name of one override of a kind. -/
def OverrideKind.name : OverrideKind → String
  | fragment => "fragment"
  | hook => "hook"

/-- The name of all overrides of a kind. -/
def OverrideKind.plural : OverrideKind → String
  | fragment => "fragments"
  | hook => "hooks"

/-- Something that was left out. -/
inductive Warning where
  /-- The operation returns no built model and is dropped. -/
  | unresolvedReturn (root : OperationRoot) (operation returns : String)
  /-- The field is selected below a model that is not built and is omitted. -/
  | excludedConnection (model field : String)
  /-- The overrides are for a model that is not built and are ignored. -/
  | unknownOverride (kind : OverrideKind) (model : String)
  deriving DecidableEq

/-- The text of a warning. -/
def Warning.message : Warning → String
  | unresolvedReturn root operation returns =>
    root.typeName ++ " operation " ++ operation ++ " returns " ++ returns ++
      ", which is not a model"
  | excludedConnection model field =>
    "skipping selection of " ++ field ++ ": model " ++ model ++ " is not in the build set"
  | unknownOverride kind model =>
    "ignoring " ++ kind.plural ++ " for " ++ model ++ ": model is not in the build set"

end SchemaAccess
