/-!
# Positions in a schema document

A position counts lines and columns from one.  `Position.after` is the position behind a piece of
text that stands at a given position.
-/

namespace SchemaAccess.Document

/-- A place in a text. -/
structure Position where
  line : Nat
  column : Nat
  deriving DecidableEq

namespace Position

/-- The place of the first character. -/
def start : Position := ⟨1, 1⟩

/-- The place behind one more character of a token: only a line feed starts a line. -/
def step (p : Position) (c : Char) : Position :=
  if c = '\n' then ⟨p.line + 1, 1⟩ else ⟨p.line, p.column + 1⟩

/-- The place behind a token. -/
def after (p : Position) (token : List Char) : Position := token.foldl step p

/-- Line and column with a colon between them. -/
def print (p : Position) : String := toString p.line ++ ":" ++ toString p.column

theorem after_append (p : Position) (s t : List Char) :
    p.after (s ++ t) = (p.after s).after t := List.foldl_append

end Position

end SchemaAccess.Document
