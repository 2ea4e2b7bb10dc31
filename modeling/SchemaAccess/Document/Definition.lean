import SchemaAccess.TypeRef

/-!
# Definitions of a schema document

A document is a list of definitions.  Of each definition the tree keeps what declarations are made
of: names, types, and the names of directives; values, descriptions and definitions of other kinds
are checked by the grammar and not kept.
-/

namespace SchemaAccess.Document

/-- A name with a type: an argument or an input field. -/
abbrev TypedName := String × TypeRef

/-- A field of an object type. -/
structure FieldDefinition where
  name : String
  arguments : List TypedName
  type : TypeRef
  /-- The names of the directives, in order. -/
  directives : List String
  deriving DecidableEq

/-- A definition. -/
inductive Definition where
  /-- The operation types of the schema, as far as they are named. -/
  | schema (query mutation : Option String)
  | object (name : String) (directives : List String) (fields : List FieldDefinition)
  /-- More fields for an object type. -/
  | extendObject (name : String) (fields : List FieldDefinition)
  | input (name : String) (fields : List TypedName)
  | enum (name : String) (values : List String)
  /-- A definition that declares nothing of interest here. -/
  | other
  deriving DecidableEq

end SchemaAccess.Document
