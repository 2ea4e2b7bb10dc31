import SchemaAccess.Proofs.Text.Classes

/-!
# What stands between the words of a schema

A layout is a schema with everything that reading it should not see: white space, comments,
strings, and the argument lists of directives.  A layout has two texts, and the pieces in which the
texts differ are defined here.

* `Stage` — a layout as it is written, and as cleaning should leave it.
* `Filler`, `Space` — white space and comments.
* `Literal` — a string or block string that ends where it should.
* `Balanced` — an argument list, from its opening to its closing parenthesis.
* `Run` — white space, comments, strings and the characters of a class, in any order.
-/

namespace SchemaAccess.Layout

open Text Loose

/-- The two texts of a layout. -/
inductive Stage where
  | written
  | cleaned

/-! ## White space and comments -/

/-- A white space character, or a comment with the line feed that ends it. -/
inductive Filler where
  | blank (c : Char) (isBlank : Text.isBlank c = true)
  | comment (text : List Char) (onLine : '\n' ∉ text)

/-- Of a comment cleaning leaves the line feed. -/
def Filler.text : Stage → Filler → List Char
  | _, .blank c _ => [c]
  | .written, .comment text _ => '#' :: text ++ ['\n']
  | .cleaned, .comment _ _ => ['\n']

/-- White space and comments, possibly none. -/
abbrev Gap := List Filler

def Gap.text (stage : Stage) (gap : Gap) : List Char := gap.flatMap (Filler.text stage)

/-- White space and comments, not none. -/
structure Space where
  first : Filler
  more : Gap

def Space.text (stage : Stage) (space : Space) : List Char :=
  space.first.text stage ++ Gap.text stage space.more

/-! ## Strings -/

/-- What may stand between the quotes of a string: a quote, a backslash or a line feed only behind
a backslash. -/
inductive Quoted : List Char → Prop
  | nil : Quoted []
  | escape (c : Char) {rest : List Char} (tail : Quoted rest) : Quoted ('\\' :: c :: rest)
  | char {c : Char} {rest : List Char} (plain : c ≠ '"' ∧ c ≠ '\\' ∧ c ≠ '\n')
      (tail : Quoted rest) : Quoted (c :: rest)

/-- A string or a block string. -/
inductive Literal where
  | quoted (inside : List Char) (isQuoted : Quoted inside)
  /-- The three quotes at the end are the first three in a row. -/
  | block (inside : List Char) (isOpen : ¬ ['"', '"', '"'] <:+: inside ++ ['"', '"'])

namespace Literal

/-- What follows the opening quote, up to the closing one. -/
def afterOpening : Literal → List Char
  | quoted inside _ => inside ++ ['"']
  | block inside _ => '"' :: '"' :: inside ++ ['"', '"', '"']

/-- Of a literal cleaning leaves a space. -/
def text : Stage → Literal → List Char
  | .written, l => '"' :: l.afterOpening
  | .cleaned, _ => [' ']

/-- True of the empty string, which would begin a block string if a quote followed it. -/
def isEmptyString : Literal → Bool
  | quoted inside _ => inside.isEmpty
  | block _ _ => false

end Literal

/-! ## Argument lists -/

/-- Text whose parentheses match outside strings, without comments. -/
inductive Balanced : List Char → Prop
  | nil : Balanced []
  | char {c : Char} {rest : List Char} (plain : c ∉ ['"', '#', '(', ')'])
      (tail : Balanced rest) : Balanced (c :: rest)
  | literal (l : Literal) {rest : List Char} (tail : Balanced rest)
      (apart : l.isEmptyString = true → rest.head? ≠ some '"') :
      Balanced (l.text .written ++ rest)
  | group {inner rest : List Char} (inside : Balanced inner) (tail : Balanced rest) :
      Balanced ('(' :: inner ++ ')' :: rest)

/-- The argument list of a directive, after white space. -/
structure ArgumentList where
  before : List Char
  isBlank : ∀ c ∈ before, Text.isBlank c = true
  inside : List Char
  isBalanced : Balanced inside

/-- Of an argument list cleaning leaves a space. -/
def ArgumentList.text : Stage → ArgumentList → List Char
  | .written, list => list.before ++ '(' :: list.inside ++ [')']
  | .cleaned, _ => [' ']

/-! ## Runs -/

/-- A part of a run. -/
inductive Mark where
  | filler (f : Filler)
  | char (c : Char)
  | literal (l : Literal)

namespace Mark

def text (stage : Stage) : Mark → List Char
  | filler f => f.text stage
  | char c => [c]
  | literal l => l.text stage

def isLiteral : Mark → Bool
  | literal _ => true
  | _ => false

def isEmptyString : Mark → Bool
  | literal l => l.isEmptyString
  | _ => false

end Mark

/-- White space, comments, strings and characters of class `p`. -/
structure Run (p : Char → Bool) where
  marks : List Mark
  allowed : ∀ c, Mark.char c ∈ marks → p c = true
  /-- No string follows the empty string directly. -/
  apart : marks.IsChain fun a b => a.isEmptyString = true → b.isLiteral = false

namespace Run

variable {p : Char → Bool}

def text (stage : Stage) (run : Run p) : List Char := run.marks.flatMap (Mark.text stage)

def endsEmpty (run : Run p) : Bool := run.marks.getLast?.any Mark.isEmptyString

def beginsQuoted (run : Run p) : Bool := run.marks.head?.any Mark.isLiteral

end Run

/-- What may stand before and behind the items of a list: white space, comments, commas, and the
descriptions of the items. -/
abbrev Margin := Run (· == ',')

end SchemaAccess.Layout
