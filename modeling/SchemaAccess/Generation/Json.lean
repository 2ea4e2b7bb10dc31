import SchemaAccess.Generation.Basic
import SchemaAccess.Selection.Json

/-!
# Generations as JSON

The values that are printed or handed to renderers.  Tables become objects in table order.

* `Accessor.toJson`, `Collection.toJson`, `Warning.toJson`, `Generation.toJson` — the parts of a
  generation.
* `Model.toJson` — a model as it stands in the graph, with its selections unrendered.
-/

namespace SchemaAccess

/-- An accessor as it is kept with a model. -/
def Accessor.definitionJson (a : Accessor) : Json :=
  .object [("kind", .string a.kind.name), ("operationName", .string a.operation),
    ("params", a.params.textsToJson)]

/-- An accessor with everything that is derived from it. -/
def Accessor.toJson (a : Accessor) : Json :=
  .object [
    ("functionName", .string a.functionName),
    ("operationName", .string a.operation),
    ("kind", .string a.kind.name),
    ("internalFunction", .string a.kind.helper),
    ("returnType", .string a.kind.returnType),
    ("inputType", .string a.inputSignature),
    ("inputRequired", .bool a.inputRequired),
    ("params", a.params.textsToJson),
    ("paramDefinition", .string a.paramDefinition)]

/-- A rendered fragment. -/
def RenderedFragment.toJson (f : RenderedFragment) : Json :=
  .object [("key", .string f.key), ("identifier", .string f.identifier), ("body", .string f.body),
    ("text", .string f.text)]

/-- A model with its selections as they are. -/
def Model.toJson (m : Model) : Json :=
  .object [
    ("name", .string m.name),
    ("fields", m.fields.textsToJson),
    ("primitiveFields", .strings m.primitive),
    ("complexFields", .strings m.complex),
    ("jsonFields", .strings m.json),
    ("connections", m.connections.textsToJson),
    ("queries", .array (m.accessors.map Accessor.definitionJson)),
    ("fragments", m.fragments.toJson Selection.arrayOf),
    ("hooks", m.hooks.textsToJson)]

/-- A collection. -/
def Collection.toJson (c : Collection) : Json :=
  .object [
    ("name", .string c.model.name),
    ("collectionName", .string c.name),
    ("fields", c.model.fields.textsToJson),
    ("primitiveFields", .strings c.model.primitive),
    ("complexFields", .strings c.model.complex),
    ("jsonFields", .strings c.model.json),
    ("connections", c.model.connections.textsToJson),
    ("queries", .array (c.model.accessors.map Accessor.toJson)),
    ("fragments", .array (c.fragments.map RenderedFragment.toJson)),
    ("hooks", c.model.hooks.textsToJson)]

/-- A warning, tagged by its kind. -/
def Warning.toJson : Warning → Json
  | .unresolvedReturn root operation returns =>
    .object [("type", .string "unresolvedReturnType"), ("block", .string root.typeName),
      ("operation", .string operation), ("returnType", .string returns)]
  | .excludedConnection model field =>
    .object [("type", .string "excludedConnection"), ("model", .string model),
      ("field", .string field)]
  | .unknownOverride kind model =>
    .object [("type", .string "unknownOverrideModel"), ("kind", .string kind.name),
      ("model", .string model)]

/-- A generation. -/
def Generation.toJson (g : Generation) : Json :=
  .object [
    ("models", .array (g.collections.map Collection.toJson)),
    ("enums", g.enums.toJson .strings),
    ("inputs", g.inputs.tablesToJson),
    ("queryInputs", g.queryInputs.tablesToJson),
    ("warnings", .array (g.warnings.map Warning.toJson))]

end SchemaAccess
