/-!
# Type references

The type of a field, argument or input field: a named type inside any number of lists, where the
name and each list may be marked as required.

* `TypeRef` — the tree.  Each level carries its own mark, so a doubled mark cannot be written.
* `TypeRef.print` — the compact spelling, `[[Post!]]!` for instance.
* `TypeRef.baseName`, `TypeRef.unmarked`, `TypeRef.isRequired` — what the generator asks of a type,
  said on the tree.
-/

namespace SchemaAccess

/-- A type reference. -/
inductive TypeRef where
  /-- A named type. -/
  | named (name : String) (required : Bool)
  /-- A list. -/
  | list (element : TypeRef) (required : Bool)
  deriving DecidableEq

namespace TypeRef

/-- The mark of a required type. -/
def mark (required : Bool) : List Char := if required then ['!'] else []

/-- The compact spelling, as characters. -/
def chars : TypeRef → List Char
  | named name required => name.toList ++ mark required
  | list element required => '[' :: element.chars ++ ']' :: mark required

/-- The compact spelling. -/
def print (t : TypeRef) : String := String.ofList t.chars

/-- The name inside all lists. -/
def baseName : TypeRef → String
  | named name _ => name
  | list element _ => element.baseName

/-- True if the outermost level is marked as required. -/
def isRequired : TypeRef → Bool
  | named _ required => required
  | list _ required => required

/-- The type with its outermost level marked as given. -/
def withRequired (required : Bool) : TypeRef → TypeRef
  | named name _ => named name required
  | list element _ => list element required

/-- The type without any mark. -/
def unmarked : TypeRef → TypeRef
  | named name _ => named name false
  | list element _ => list element.unmarked false

@[simp]
theorem chars_print (t : TypeRef) : t.print.toList = t.chars := String.toList_ofList

end TypeRef

end SchemaAccess
