import SchemaAccess.Declaration
import SchemaAccess.Document.Grammar

/-!
# The view of schema documents

The declarations of two schemas that are valid documents.  Models, inputs and enums come from
definitions alone; the operations of the query and mutation types come from definitions and
extensions alike, and a schema definition may give these types other names.

* `models`, `fieldsOf?`, `operations`, `inputs`, `enums` — the declarations of one document.
* `view`, `viewOfTexts` — all questions about two documents, and about two texts.
-/

namespace SchemaAccess.Document

/-- The model that a definition declares. -/
def Definition.model? : Definition → Option ModelDeclaration
  | .object name directives fields =>
    if directives.contains modelDirective then
      some ⟨name, (fields.filter fun field =>
        field.directives.any relationshipDirectives.contains).map FieldDefinition.name⟩
    else none
  | _ => none

/-- The models of a document. -/
def models (document : List Definition) : List ModelDeclaration :=
  document.filterMap Definition.model?

/-- The fields of a definition of the object type with a name. -/
def Definition.fieldsOf? (model : String) : Definition → Option (List FieldDeclaration)
  | .object name _ fields =>
    if name = model then some (fields.map fun field => .ofRaw field.name field.type.print)
    else none
  | _ => none

/-- The fields of the first definition of an object type. -/
def fieldsOf? (document : List Definition) (model : String) : Option (List FieldDeclaration) :=
  document.findSome? (Definition.fieldsOf? model)

/-- The name that a schema definition gives to an operation type. -/
def Definition.root? (root : OperationRoot) : Definition → Option String
  | .schema query mutation =>
    match root with
    | .query => query
    | .mutation => mutation
  | _ => none

/-- The name of an operation type: the last one given by a schema definition, or its own. -/
def rootName (document : List Definition) (root : OperationRoot) : String :=
  ((document.filterMap (Definition.root? root)).getLast?).getD root.typeName

/-- Typed names as a table of types. -/
def typedTable (names : List TypedName) : Table String :=
  Table.ofList (names.map fun entry => (entry.1, entry.2.print))

/-- The operation that a field declares. -/
def operationOf (field : FieldDefinition) : OperationDeclaration where
  name := field.name
  params := typedTable field.arguments
  returns := field.type.print

/-- The fields that a definition or extension gives to an object type. -/
def Definition.contribution (type : String) : Definition → List FieldDefinition
  | .object name _ fields => if name = type then fields else []
  | .extendObject name fields => if name = type then fields else []
  | _ => []

/-- The operations of a document. -/
def operations (document : List Definition) (root : OperationRoot) : List OperationDeclaration :=
  (document.flatMap (Definition.contribution (rootName document root))).map operationOf

/-- The inputs of a document. -/
def inputs (document : List Definition) : List InputDeclaration :=
  document.filterMap fun definition =>
    match definition with
    | .input name fields => some ⟨name, typedTable fields⟩
    | _ => none

/-- The enums of a document. -/
def enums (document : List Definition) : List EnumDeclaration :=
  document.filterMap fun definition =>
    match definition with
    | .enum name values => some ⟨name, values⟩
    | _ => none

/-- The view of two documents. -/
def view (source build : List Definition) : SchemaView where
  models := .ok (models source)
  fields model :=
    match fieldsOf? build model with
    | some list => .ok list
    | none => .error (.missingModel model)
  operations root := .ok (operations build root)
  inputs := .ok (inputs build)
  enums := .ok (enums build)

/-- A schema as a document. -/
def read (role : SchemaRole) (text : String) : Except Error (List Definition) :=
  match parse text with
  | .ok definitions => .ok definitions
  | .error position => .error (.schemaText role position)

/-- The view of two schemas as documents; the source schema is read first. -/
def viewOfTexts (source build : String) : Except Error SchemaView := do
  let source ← read .source source
  let build ← read .build build
  return view source build

end SchemaAccess.Document
