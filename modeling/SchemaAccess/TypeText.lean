import SchemaAccess.Text.Name
import SchemaAccess.Text.Blank
import SchemaAccess.Text.Affix

/-!
# Types as they are written

Field and parameter types travel through the generator as text, in the spelling of the schema, and
every question about them is answered on the text.  The answers are given for any text, well formed
or not.

* `connectionModel?` — the model of a page type, whose name is `Model` model `Connection`.
* `normalize` — a page type becomes the list of its model, any other type is trimmed.
* `unmarked` — the type without required marks.
* `baseName` — the text inside all brackets and marks.
* `element?` — the element of a list type, one list taken off.
* `documented` — the type in the notation of documentation comments.
-/

namespace SchemaAccess.TypeText

open Text

/-! ## Page types -/

/-- The model name inside the name of a page type, which may be marked as required. -/
def connectionModel? (s : List Char) : Option (List Char) := do
  let name := (dropBack? ['!'] s).getD s
  let rest ← dropFront? "Model".toList name
  let model ← dropBack? "Connection".toList rest
  if model ≠ [] ∧ model.all isNameChar then some model else none

/-- True of a page type, with white space around it or without. -/
def isConnection (raw : String) : Bool := (connectionModel? (trim raw.toList)).isSome

/-- The list of the model for a page type; any other type without the white space around it. -/
def normalize (raw : String) : String :=
  match connectionModel? (trim raw.toList) with
  | some model => String.ofList ('[' :: model ++ [']'])
  | none => String.ofList (trim raw.toList)

/-! ## Marks and brackets -/

/-- The text without its required marks. -/
def unmarked (raw : String) : String := String.ofList (raw.toList.filter (· ≠ '!'))

/-- True of a bracket, a required mark or white space. -/
def isWrapping (c : Char) : Bool := c == '[' || c == ']' || c == '!' || isBlank c

/-- The text inside all brackets and marks. -/
def baseName (raw : String) : String := String.ofList (trimWhere isWrapping raw.toList)

/-- The text without the required marks at its end. -/
def dropMarks (s : List Char) : List Char := trimEndWhere (· == '!') s

/-- What stands between an opening bracket at the front and a closing one at the end. -/
def bracketed? (s : List Char) : Option (List Char) := do
  let rest ← dropFront? ['['] s
  dropBack? [']'] rest

/-- The element of a list type, without its own mark; one list is taken off. -/
def element? (raw : String) : Option String :=
  (bracketed? (dropMarks (trim raw.toList))).map fun inner =>
    String.ofList (dropMarks (trim inner))

/-! ## Documentation -/

/-- The documentation name of a scalar; other names document themselves. -/
def documentedName (name : String) : String :=
  if name ∈ ["ID", "String", "AWSDate", "AWSDateTime", "AWSTime", "AWSEmail", "AWSURL", "AWSPhone",
      "AWSIPAddress"] then "string"
  else if name ∈ ["Int", "Float", "AWSTimestamp"] then "number"
  else if name = "Boolean" then "boolean"
  else if name = "AWSJSON" then "Object"
  else name

theorem eq_of_bracketed? {s inner : List Char} (h : bracketed? s = some inner) :
    s = '[' :: inner ++ [']'] := by
  simp only [bracketed?, bind, Option.bind_eq_some_iff] at h
  obtain ⟨rest, h₁, h₂⟩ := h
  rw [dropFront?_eq_some_iff] at h₁
  rw [dropBack?_eq_some_iff] at h₂
  rw [h₁, h₂]
  rfl

theorem length_bracketed? {s inner : List Char} (h : bracketed? s = some inner) :
    inner.length < s.length := by
  have := congrArg List.length (eq_of_bracketed? h)
  simp only [List.length_append, List.length_cons] at this
  omega

theorem length_trimEndWhere_le (p : Char → Bool) (s : List Char) :
    (trimEndWhere p s).length ≤ s.length := (trimEndWhere_isPrefix p s).length_le

theorem length_trim_le (s : List Char) : (trim s).length ≤ s.length :=
  Nat.le_trans (length_trimEndWhere_le _ _) (List.dropWhile_suffix _).length_le

/-- A type without its outermost mark in documentation notation: lists as `Array<…>`, scalars by
their documentation names. -/
def documentedInner (s : List Char) : List Char :=
  match _h : bracketed? (dropMarks (trim s)) with
  | some inner => "Array<".toList ++ documentedInner inner ++ ['>']
  | none => (documentedName (String.ofList (dropMarks (trim s)))).toList
termination_by s.length
decreasing_by
  have h₁ := length_bracketed? _h
  have h₂ := length_trimEndWhere_le (· == '!') (trim s)
  have h₃ := length_trim_le s
  unfold dropMarks at h₁
  omega

/-- A type in documentation notation: a question mark stands before a type that is not required. -/
def documented (raw : String) : String :=
  match dropBack? ['!'] (trim raw.toList) with
  | some inner => String.ofList (documentedInner inner)
  | none => String.ofList ('?' :: documentedInner (trim raw.toList))

end SchemaAccess.TypeText
