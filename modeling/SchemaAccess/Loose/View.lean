import SchemaAccess.Declaration
import SchemaAccess.Loose.Cleaning
import SchemaAccess.Loose.Pattern

/-!
# The view of loosely laid out schemas

The declarations of two schemas, found by searching their cleaned texts.  No text is refused: what
is not recognised is not declared.

* `models`, `fieldsOf?`, `operations`, `inputs`, `enums` — the declarations of one cleaned text.
* `view` — all questions about a source schema and a build schema.
-/

namespace SchemaAccess.Loose

open Text

/-- True if a header has the model directive as a word of its own. -/
def isModelHeader (header : List Char) : Bool :=
  (words header).contains ('@' :: modelDirective.toList)

/-- True if a run of directives has a relationship directive as a word of its own. -/
def isRelationship (directives : List Char) : Bool :=
  (words directives).any fun word =>
    match word with
    | '@' :: name => relationshipDirectives.contains (String.ofList name)
    | _ => false

/-- The fields of a text with their types, as a table. -/
def typedTable (found : List (List Char × List Char)) : Table String :=
  Table.ofList (found.map fun entry => (String.ofList entry.1, String.ofList entry.2))

/-- The model that a block declares. -/
def modelOf (block : Block) : ModelDeclaration where
  name := String.ofList block.name
  relationships :=
    ((fields block.body).filter fun field => isRelationship field.directives).map
      fun field => String.ofList field.name

/-- The models of a cleaned text. -/
def models (text : List Char) : List ModelDeclaration :=
  ((blocks text).filter fun block =>
    block.keyword = .type && isModelHeader block.header).map modelOf

/-- The fields of the first type block with a name. -/
def fieldsOf? (text : List Char) (model : String) : Option (List FieldDeclaration) :=
  ((blocks text).find? fun block =>
    block.keyword = .type && String.ofList block.name = model).map fun block =>
      (fields block.body).map fun field =>
        .ofRaw (String.ofList field.name) (String.ofList field.type)

/-- The operation that a field declares. -/
def operationOf (field : Field) : OperationDeclaration where
  name := String.ofList field.name
  params :=
    match field.arguments with
    | some arguments => typedTable (params arguments)
    | none => Table.empty
  returns := String.ofList field.type

/-- The operations in all type blocks of the root's name. -/
def operations (text : List Char) (root : OperationRoot) : List OperationDeclaration :=
  ((blocks text).filter fun block =>
    block.keyword = .type && String.ofList block.name = root.typeName).flatMap fun block =>
      (fields block.body).map operationOf

/-- The inputs of a cleaned text. -/
def inputs (text : List Char) : List InputDeclaration :=
  ((blocks text).filter fun block => block.keyword = .input).map fun block =>
    ⟨String.ofList block.name,
      typedTable ((fields block.body).map fun field => (field.name, field.type))⟩

/-- The values in the body of an enum: its words, commas aside, that are no directives. -/
def enumValues (body : List Char) : List String :=
  ((piecesWhere (fun c => isBlank c || c == ',') body).filter fun value =>
    value.head? ≠ some '@').map String.ofList

/-- The enums of a cleaned text. -/
def enums (text : List Char) : List EnumDeclaration :=
  ((blocks text).filter fun block => block.keyword = .enum).map fun block =>
    ⟨String.ofList block.name, enumValues block.body⟩

/-- The view of a source schema and a build schema. -/
def view (source build : String) : SchemaView :=
  let source := clean source.toList
  let build := clean build.toList
  { models := .ok (models source)
    fields := fun model =>
      match fieldsOf? build model with
      | some list => .ok list
      | none => .error (.missingModel model)
    operations := fun root => .ok (operations build root)
    inputs := .ok (inputs build)
    enums := .ok (enums build) }

end SchemaAccess.Loose
