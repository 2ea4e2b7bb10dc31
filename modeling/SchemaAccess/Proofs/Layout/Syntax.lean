import SchemaAccess.Document.Definition
import SchemaAccess.Proofs.Layout.Spacing
import SchemaAccess.Proofs.Loose.Found

/-!
# Schemas with their layout

The concrete syntax of a schema: every definition together with the white space, comments,
descriptions, argument lists and default values in it.  Each node is laid out in all the ways that
mean the same, and carries the proof that its spacing keeps its words apart.

* `Directive`, `InputValue`, `Field`, `EnumValue`, `Interfaces` — the parts of a definition.
* `Items` — arguments, fields or values with what separates them.
* `Definition`, `Schema` — a definition and a whole schema.
* `Schema.text` — the two texts of a schema; `Schema.definitions` — what it defines.
-/

namespace SchemaAccess.Layout

open Text

/-! ## Words -/

structure Name where
  chars : List Char
  isName : IsName chars

def Name.string (name : Name) : String := String.ofList name.chars

/-- A type reference that is made of a name. -/
structure TypeUse where
  type : TypeRef
  isName : IsName type.baseName.toList

/-- A directive, which white space always sets off. -/
structure Directive where
  before : Space
  name : Name
  arguments : Option ArgumentList

def Directive.text (stage : Stage) (d : Directive) : List Char :=
  d.before.text stage ++ '@' :: d.name.chars ++ (d.arguments.map (·.text stage)).getD []

def directivesText (stage : Stage) (ds : List Directive) : List Char :=
  ds.flatMap (Directive.text stage)

def directiveNames (ds : List Directive) : List String := ds.map fun d => d.name.string

/-! ## Items -/

/-- What lists are made of.  An item that ends with the empty string must not be followed by a
quote. -/
class Item (α : Type) where
  text : Stage → α → List Char
  endsEmpty : α → Bool

/-- An item with what follows it. -/
structure Entry (α : Type) [Item α] where
  item : α
  after : Margin
  apart : Item.endsEmpty item = true → after.beginsQuoted = false

/-- A list of items, each but the last with something behind it. -/
structure Items (α : Type) [Item α] where
  before : Margin
  entries : List (Entry α)
  separated : entries.IsChain fun a _ => a.after.marks ≠ []

variable {α : Type} [Item α]

def Entry.text (stage : Stage) (entry : Entry α) : List Char :=
  Item.text stage entry.item ++ entry.after.text stage

def Items.text (stage : Stage) (items : Items α) : List Char :=
  items.before.text stage ++ items.entries.flatMap (Entry.text stage)

def Items.list (items : Items α) : List α := items.entries.map Entry.item

/-! ## Parts of definitions -/

/-- True of a character of a default value without braces. -/
def isValueChar (c : Char) : Bool := isNameChar c || ['+', '-', '.', '[', ']', ','].contains c

/-- A default value without braces, and its equals sign. -/
structure DefaultValue where
  before : Gap
  value : Run isValueChar

def DefaultValue.text (stage : Stage) (d : DefaultValue) : List Char :=
  Gap.text stage d.before ++ '=' :: d.value.text stage

/-- An argument or input field. -/
structure InputValue where
  name : Name
  beforeColon : Gap
  afterColon : Gap
  type : TypeUse
  defaultValue : Option DefaultValue
  directives : List Directive

instance : Item InputValue where
  text stage v :=
    v.name.chars ++ Gap.text stage v.beforeColon ++ ':' :: Gap.text stage v.afterColon ++
      v.type.type.chars ++ (v.defaultValue.map (·.text stage)).getD [] ++
      directivesText stage v.directives
  endsEmpty v := v.directives.isEmpty && v.defaultValue.any (·.value.endsEmpty)

def InputValue.typedName (v : InputValue) : Document.TypedName := (v.name.string, v.type.type)

/-- Arguments in parentheses, after white space. -/
structure Arguments where
  before : Gap
  values : Items InputValue

def Arguments.text (stage : Stage) (as : Arguments) : List Char :=
  Gap.text stage as.before ++ '(' :: as.values.text stage ++ [')']

/-- A field of a type. -/
structure Field where
  name : Name
  arguments : Option Arguments
  beforeColon : Gap
  afterColon : Gap
  type : TypeUse
  directives : List Directive

instance : Item Field where
  text stage f :=
    f.name.chars ++ (f.arguments.map (·.text stage)).getD [] ++ Gap.text stage f.beforeColon ++
      ':' :: Gap.text stage f.afterColon ++ f.type.type.chars ++ directivesText stage f.directives
  endsEmpty _ := false

def Field.definition (f : Field) : Document.FieldDefinition where
  name := f.name.string
  arguments := match f.arguments with
    | some as => as.values.list.map InputValue.typedName
    | none => []
  type := f.type.type
  directives := directiveNames f.directives

/-- A value of an enum. -/
structure EnumValue where
  name : Name
  directives : List Directive

instance : Item EnumValue where
  text stage v := v.name.chars ++ directivesText stage v.directives
  endsEmpty _ := false

/-- What stands before the name of an interface. -/
inductive Link where
  | space (s : Space)
  | ampersand (before after : Gap)

def Link.text (stage : Stage) : Link → List Char
  | .space s => s.text stage
  | .ampersand before after => Gap.text stage before ++ '&' :: Gap.text stage after

/-- The interfaces that a type implements. -/
structure Interfaces where
  before : Space
  names : List (Link × Name)

def Interfaces.text (stage : Stage) (is : Interfaces) : List Char :=
  is.before.text stage ++ "implements".toList ++
    is.names.flatMap fun i => i.1.text stage ++ i.2.chars

/-! ## Definitions -/

/-- What is defined: the part of a definition in braces, and what only types have. -/
inductive Body where
  | object (interfaces : Option Interfaces) (fields : Items Field)
  | interface (interfaces : Option Interfaces) (fields : Items Field)
  | input (fields : Items InputValue)
  | enum (values : Items EnumValue)

namespace Body

def keyword : Body → Loose.Keyword
  | object _ _ => .type
  | interface _ _ => .interface
  | input _ => .input
  | enum _ => .enum

def interfaces : Body → Option Interfaces
  | object is _ | interface is _ => is
  | input _ | enum _ => none

/-- The text between the braces. -/
def text (stage : Stage) : Body → List Char
  | object _ fields | interface _ fields => fields.text stage
  | input fields => fields.text stage
  | enum values => values.text stage

end Body

/-- A definition with a body. -/
structure Definition where
  before : Space
  name : Name
  directives : List Directive
  beforeBody : Gap
  body : Body

namespace Definition

/-- The text between the name and the body. -/
def header (stage : Stage) (d : Definition) : List Char :=
  (d.body.interfaces.map (·.text stage)).getD [] ++ directivesText stage d.directives ++
    Gap.text stage d.beforeBody

def text (stage : Stage) (d : Definition) : List Char :=
  Loose.keywordText d.body.keyword ++ d.before.text stage ++ d.name.chars ++ d.header stage ++
    '\x7b' :: d.body.text stage ++ ['\x7d']

/-- What a definition defines; interfaces are of no interest. -/
def definition (d : Definition) : Document.Definition :=
  match d.body with
  | .object _ fields =>
    .object d.name.string (directiveNames d.directives) (fields.list.map Field.definition)
  | .interface _ _ => .other
  | .input fields => .input d.name.string (fields.list.map InputValue.typedName)
  | .enum values => .enum d.name.string (values.list.map fun v => v.name.string)

end Definition

/-! ## Schemas -/

/-- Definitions, each with what stands before it. -/
structure Schema where
  parts : List (Margin × Definition)
  last : Margin
  /-- A comment at the very end that no line feed ends. -/
  ending : Option { text : List Char // '\n' ∉ text }

namespace Schema

def text : Stage → Schema → List Char
  | .written, s =>
    s.parts.flatMap (fun part => part.1.text .written ++ part.2.text .written) ++
      s.last.text .written ++ (s.ending.map fun comment => '#' :: comment.1).getD []
  | .cleaned, s =>
    s.parts.flatMap (fun part => part.1.text .cleaned ++ part.2.text .cleaned) ++
      s.last.text .cleaned

def print (s : Schema) : String := String.ofList (s.text .written)

def definitions (s : Schema) : List Document.Definition :=
  s.parts.map fun part => part.2.definition

end Schema

end SchemaAccess.Layout
