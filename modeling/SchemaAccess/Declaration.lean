import SchemaAccess.Error
import SchemaAccess.Table.Basic
import SchemaAccess.TypeText

/-!
# What a pair of schemas declares

A generation looks at two schemas: the source schema, whose annotated types are the models, and the
build schema, which lists the fields of every model, the operations, the inputs and the enums.
However the schemas are read, the rest of the generator sees declarations only.

* `ModelDeclaration`, `FieldDeclaration`, `OperationDeclaration`, `InputDeclaration`,
  `EnumDeclaration` — the five kinds.
* `SchemaView` — the questions that a generation asks; each may fail.
* `SchemaView.ofLists` — the view that answers from given declarations.
-/

namespace SchemaAccess

/-! ## Declarations -/

/-- A type annotated as a model in the source schema. -/
structure ModelDeclaration where
  name : String
  /-- The fields annotated as relationships, in order. -/
  relationships : List String
  deriving DecidableEq

/-- A field of a model in the build schema. -/
structure FieldDeclaration where
  name : String
  /-- The type, with a page type replaced by the list of its model. -/
  type : String
  /-- True if the schema has a page type. -/
  paginated : Bool
  deriving DecidableEq

/-- The declaration of a field whose type is written `raw`. -/
def FieldDeclaration.ofRaw (name raw : String) : FieldDeclaration :=
  ⟨name, TypeText.normalize raw, TypeText.isConnection raw⟩

/-- A field of the query or mutation type. -/
structure OperationDeclaration where
  name : String
  params : Table String
  /-- The return type as written. -/
  returns : String

/-- An input type. -/
structure InputDeclaration where
  name : String
  fields : Table String

/-- An enum. -/
structure EnumDeclaration where
  name : String
  values : List String
  deriving DecidableEq

/-- The directive that makes a type a model. -/
def modelDirective : String := "model"

/-- The directives that make a field a relationship. -/
def relationshipDirectives : List String :=
  ["connection", "hasMany", "hasOne", "belongsTo", "manyToMany"]

/-! ## Views -/

/-- What a generation asks of a pair of schemas. -/
structure SchemaView where
  /-- The models of the source schema, in order. -/
  models : Except Error (List ModelDeclaration)
  /-- The fields of a model in the build schema. -/
  fields : String → Except Error (List FieldDeclaration)
  /-- The operations of the build schema, in order. -/
  operations : OperationRoot → Except Error (List OperationDeclaration)
  /-- The inputs of the build schema, in order. -/
  inputs : Except Error (List InputDeclaration)
  /-- The enums of the build schema, in order. -/
  enums : Except Error (List EnumDeclaration)

/-- The view that answers from given declarations.  Fields are given with their types as written;
of several lists for one model the first counts. -/
def SchemaView.ofLists (models : List ModelDeclaration)
    (fields : List (String × List (String × String)))
    (operations : OperationRoot → List OperationDeclaration) (inputs : List InputDeclaration)
    (enums : List EnumDeclaration) : SchemaView where
  models := .ok models
  fields model :=
    match Entries.get? model fields with
    | some list => .ok (list.map fun field => .ofRaw field.1 field.2)
    | none => .error (.missingModel model)
  operations root := .ok (operations root)
  inputs := .ok inputs
  enums := .ok enums

end SchemaAccess
