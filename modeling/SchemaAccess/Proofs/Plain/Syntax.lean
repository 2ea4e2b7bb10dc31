import SchemaAccess.Proofs.Document.Spelling
import SchemaAccess.Proofs.Layout.Syntax

/-!
# Plain schemas

The part of the schema language that both ways of reading a schema are meant for: types, inputs and
enums that are not empty, without default values, descriptions and arguments of directives.

* `Argument`, `Field`, `Definition`, `Schema` — the trees; names and types carry their proofs.
* `Style`, `Schema.print` — a plain schema as it is usually written, one field or value a line.
* `Schema.definitions` — what a plain schema defines.
-/

namespace SchemaAccess.Plain

open Layout

/-! ## Trees -/

/-- How many lists may stand inside each other. -/
def maxLists : Nat := 40

/-- A type reference whose lists are not nested too deeply. -/
structure PlainType extends TypeUse where
  shallow : type.depth ≤ maxLists

/-- A list that is not empty. -/
abbrev Filled (α : Type) := { list : List α // list ≠ [] }

/-- An argument or input field. -/
structure Argument where
  name : Name
  type : PlainType

/-- A field of a type. -/
structure Field where
  name : Name
  arguments : List Argument
  type : PlainType
  directives : List Name

/-- A type, input or enum. -/
inductive Definition where
  | object (name : Name) (directives : List Name) (fields : Filled Field)
  | input (name : Name) (fields : Filled Argument)
  | enum (name : Name) (values : Filled Name)

/-- A schema is not empty either. -/
abbrev Schema := Filled Definition

/-! ## Printing -/

/-- What printing leaves open. -/
structure Style where
  /-- How many spaces stand before a field or value. -/
  indent : Nat
  /-- How many empty lines stand behind a definition. -/
  between : Nat

def commaText : List (List Char) → List Char
  | [] => []
  | text :: texts => text ++ texts.flatMap ([',', ' '] ++ ·)

def directivesText (ds : List Name) : List Char := ds.flatMap fun d => ' ' :: '@' :: d.chars

def Argument.text (a : Argument) : List Char := a.name.chars ++ ':' :: ' ' :: a.type.type.chars

def argumentsText : List Argument → List Char
  | [] => []
  | a :: as => '(' :: commaText ((a :: as).map Argument.text) ++ [')']

def Field.text (f : Field) : List Char :=
  f.name.chars ++ argumentsText f.arguments ++ ':' :: ' ' :: f.type.type.chars ++
    directivesText f.directives

def Style.line (style : Style) : List Char := '\n' :: List.replicate style.indent ' '

/-- Fields or values in braces, each on a line of its own. -/
def bodyText (style : Style) (texts : List (List Char)) : List Char :=
  '\x7b' :: texts.flatMap (style.line ++ ·) ++ ['\n', '\x7d']

/-- A definition with directives in front of its body. -/
def definitionText (style : Style) (keyword : Loose.Keyword) (name : Name) (ds : List Name)
    (texts : List (List Char)) : List Char :=
  Loose.keywordText keyword ++
    ' ' :: (name.chars ++ (directivesText ds ++ ' ' :: bodyText style texts))

def Definition.text (style : Style) : Definition → List Char
  | .object name directives fields =>
    definitionText style .type name directives (fields.1.map Field.text)
  | .input name fields => definitionText style .input name [] (fields.1.map Argument.text)
  | .enum name values => definitionText style .enum name [] (values.1.map Name.chars)

def Style.separator (style : Style) : List Char := List.replicate (style.between + 1) '\n'

def Schema.text (style : Style) (s : Schema) : List Char :=
  s.1.flatMap fun d => d.text style ++ style.separator

def Schema.print (style : Style) (s : Schema) : String := String.ofList (Schema.text style s)

/-! ## What is defined -/

def Argument.typedName (a : Argument) : Document.TypedName := (a.name.string, a.type.type)

def Field.definition (f : Field) : Document.FieldDefinition where
  name := f.name.string
  arguments := f.arguments.map Argument.typedName
  type := f.type.type
  directives := f.directives.map Name.string

def Definition.definition : Definition → Document.Definition
  | .object name directives fields =>
    .object name.string (directives.map Name.string) (fields.1.map Field.definition)
  | .input name fields => .input name.string (fields.1.map Argument.typedName)
  | .enum name values => .enum name.string (values.1.map Name.string)

def Schema.definitions (s : Schema) : List Document.Definition := s.1.map Definition.definition

end SchemaAccess.Plain
