import SchemaAccess.Accessor
import SchemaAccess.Error
import SchemaAccess.Selection.Basic
import SchemaAccess.Text.Blank

/-!
# Models

A model is a type of the schema for which a data-access module is generated: its fields and how
they are classified, its connections to other models, its accessors, fragments and hooks.

* `Model.ofFields` — the model of a list of fields.  A field is primitive if its type is a scalar
  or an enum inside all lists; every other field is complex.  The default fragment selects the
  primitive fields.
* `Model.connect`, `Model.addAccessors`, `Model.setFragment`, `Model.addHook` — what is attached to
  a model later.
-/

namespace SchemaAccess

/-- A model. -/
structure Model where
  name : String
  /-- The types of the fields. -/
  fields : Table String
  /-- The fields that can be selected without anything below them. -/
  primitive : List String
  /-- All other fields. -/
  complex : List String
  /-- The fields that hold arbitrary JSON. -/
  json : List String
  /-- The types of the fields that lead to models, without required marks. -/
  connections : Table String
  accessors : List Accessor
  fragments : Table (List Selection)
  hooks : Table String

namespace Model

/-! ## Classification of fields -/

/-- The scalars that can be selected without anything below them. -/
def scalars : List String :=
  ["ID", "String", "Float", "Int", "Boolean", "AWSDate", "AWSDateTime", "AWSJSON"]

/-- The scalar that holds arbitrary JSON. -/
def jsonScalar : String := "AWSJSON"

/-- The key of the fragment that every model starts with. -/
def defaultFragment : String := "FragmentDefault"

/-- True of a type that needs no selection below it. -/
def isPrimitive (enums : List String) (type : String) : Bool :=
  scalars.contains (TypeText.baseName type) || enums.contains (TypeText.baseName type)

/-- True of a type that holds arbitrary JSON. -/
def isJson (type : String) : Bool := TypeText.unmarked type = jsonScalar

/-- The names of the fields whose types are of a class. -/
def fieldsWhere (p : String → Bool) (fields : Table String) : List String :=
  (fields.entries.filter fun field => p field.2).map Prod.fst

/-- The model with these fields, where the enums have these names. -/
def ofFields (name : String) (fields : Table String) (enums : List String) : Model where
  name := name
  fields := fields
  primitive := fieldsWhere (isPrimitive enums) fields
  complex := fieldsWhere (!isPrimitive enums ·) fields
  json := fieldsWhere isJson fields
  connections := Table.empty
  accessors := []
  fragments :=
    Table.ofList [(defaultFragment,
      (fieldsWhere (isPrimitive enums) fields).map Selection.field)]
  hooks := Table.empty

/-- The name of the generated module. -/
def collectionName (model : Model) : String := model.name ++ "s"

/-- The type of a field. -/
def fieldType? (model : Model) (field : String) : Option String := model.fields.get? field

/-! ## Attachments -/

/-- Marks a field as a connection, if the model has it. -/
def connect (model : Model) (field : String) : Model :=
  match model.fieldType? field with
  | some type =>
    { model with connections := model.connections.insert field (TypeText.unmarked type) }
  | none => model

/-- Adds accessors after those that are there. -/
def addAccessors (model : Model) (accessors : List Accessor) : Model :=
  { model with accessors := model.accessors ++ accessors }

/-- Adds or replaces a fragment. -/
def setFragment (model : Model) (key : String) (selection : List Selection) : Model :=
  { model with fragments := model.fragments.insert key selection }

/-- True of a text of white space only. -/
def isBlankText (s : String) : Bool := s.toList.all Text.isBlank

/-- Binds a hook to a reference; neither may be blank. -/
def addHook (model : Model) (hook reference : String) : Except Error Model :=
  if isBlankText hook then .error (.config (.emptyHookName model.name))
  else if isBlankText reference then .error (.config (.emptyHookReference hook model.name))
  else .ok { model with hooks := model.hooks.insert hook reference }

end Model

end SchemaAccess
