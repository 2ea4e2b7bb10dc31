import SchemaAccess.Table.Json
import SchemaAccess.Text.Affix
import SchemaAccess.TypeText

/-!
# Accessors

An accessor is one generated data-access function: a schema operation attached to a model, with
the kind of call that it makes.

* `Accessor.Kind` — the four kinds, their names, the runtime helper each one calls and the type it
  is documented to return.
* `Accessor.functionName` — the name of the generated function.
* `Accessor.inputSignature`, `Accessor.inputRequired` — the documented type of its input object.
* `Accessor.paramDefinition` — the entry that sends its parameter types to the runtime.
-/

namespace SchemaAccess

/-- The kind of call that an accessor makes. -/
inductive Accessor.Kind where
  | get
  | list
  | mutate
  | iterate
  deriving DecidableEq

/-- A generated data-access function. -/
structure Accessor where
  kind : Accessor.Kind
  /-- The schema operation that is called. -/
  operation : String
  /-- The parameters of the operation with their types. -/
  params : Table String

namespace Accessor

namespace Kind

/-- The name of a kind. -/
def name : Kind → String
  | get => "get"
  | list => "list"
  | mutate => "mutate"
  | iterate => "iterate"

/-- The kind with a given name. -/
def ofName? : String → Option Kind
  | "get" => some get
  | "list" => some list
  | "mutate" => some mutate
  | "iterate" => some iterate
  | _ => none

/-- The runtime helper that accessors of a kind call. -/
def helper : Kind → String
  | get => "_get"
  | list => "_list"
  | mutate => "_mutate"
  | iterate => "_iterate"

/-- The documented return type of accessors of a kind. -/
def returnType : Kind → String
  | get | mutate => "*"
  | list => "Array<*>"
  | iterate => "GQLQueryIterator"

@[simp]
theorem ofName?_name (kind : Kind) : ofName? kind.name = some kind := by cases kind <;> rfl

end Kind

/-! ## The generated function -/

/-- The name of the generated function.  An iterating accessor shares its operation with a listing
one, so the first `list` in the name becomes `iterate`, and a name without `list` gets `iterate`
in front. -/
def functionName (a : Accessor) : String :=
  if a.kind = .iterate then
    String.ofList
      ((Text.replaceFirst? "list".toList "iterate".toList a.operation.toList).getD
        ("iterate".toList ++ a.operation.toList))
  else a.operation

/-- True of a type with a required mark at any level. -/
def hasMark (type : String) : Bool := type.toList.contains '!'

/-- True if some parameter has a required mark, so that the input object cannot be left out. -/
def inputRequired (a : Accessor) : Bool := a.params.values.any hasMark

/-- One parameter of the input signature: optional unless its type has a required mark. -/
def inputField (param : String × String) : String :=
  param.1 ++ (if hasMark param.2 then "" else "?") ++ ": " ++ TypeText.unmarked param.2

/-- The documented type of the input object, `{id: ID, limit?: Int}` for instance. -/
def inputSignature (a : Accessor) : String :=
  "\x7b" ++ ", ".intercalate (a.params.entries.map inputField) ++ "\x7d"

/-- The operation with its parameter types: `getBlog:` and a JSON object. -/
def paramDefinition (a : Accessor) : String :=
  a.operation ++ ":" ++ a.params.textsToJson.compact

end Accessor

end SchemaAccess
