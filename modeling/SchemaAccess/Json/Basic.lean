import SchemaAccess.Text.Digits

/-!
# JSON values and their text

Override documents and configuration files are read as JSON, and a generation is written as JSON.

* `Json` — a value; an object is a list of entries, in order, and a number keeps its digits as
  written, since nothing here computes with one.
* `Json.print` — the text of a value under a `Layout`; `Json.compact` and `Json.pretty` are the two
  layouts in use.
* `Json.sortKeys` — the same value with the entries of every object in the order of their keys.
-/

namespace SchemaAccess

/-- A JSON value. -/
inductive Json where
  | null
  | bool (b : Bool)
  | number (literal : String)
  | string (s : String)
  | array (items : List Json)
  | object (entries : List (String × Json))

namespace Json

/-! ## Strings -/

/-- How a character is written inside a string: quote, backslash and the control characters are
escaped, everything else stands for itself. -/
def escaped (c : Char) : List Char :=
  if c = '"' then ['\\', '"']
  else if c = '\\' then ['\\', '\\']
  else if c = '\x08' then ['\\', 'b']
  else if c = '\x0c' then ['\\', 'f']
  else if c = '\n' then ['\\', 'n']
  else if c = '\r' then ['\\', 'r']
  else if c = '\t' then ['\\', 't']
  else if c.toNat < 0x20 then
    ['\\', 'u', '0', '0', Text.hexDigit (c.toNat / 16), Text.hexDigit (c.toNat % 16)]
  else [c]

/-- A string in quotes. -/
def quoted (s : List Char) : List Char := '"' :: s.flatMap escaped ++ ['"']

/-! ## Layouts -/

/-- What stands between the tokens of a value. -/
structure Layout where
  /-- What starts the line of an item nested this deep. -/
  lineStart : Nat → List Char
  /-- What separates a key from its value. -/
  colon : List Char

/-- Nothing between the tokens. -/
def Layout.compact : Layout := ⟨fun _ => [], [':']⟩

/-- One item a line, indented by two spaces a level. -/
def Layout.pretty : Layout := ⟨fun depth => '\n' :: List.replicate (2 * depth) ' ', [':', ' ']⟩

/-! ## Text -/

mutual

/-- The text of a value nested this deep. -/
def print (layout : Layout) (depth : Nat) : Json → List Char
  | null => ['n', 'u', 'l', 'l']
  | bool true => ['t', 'r', 'u', 'e']
  | bool false => ['f', 'a', 'l', 's', 'e']
  | number literal => literal.toList
  | string s => quoted s.toList
  | array [] => ['[', ']']
  | array (item :: items) =>
    '[' :: layout.lineStart (depth + 1) ++ print layout (depth + 1) item ++
      printItems layout depth items
  | object [] => ['{', '}']
  | object ((key, value) :: entries) =>
    '{' :: layout.lineStart (depth + 1) ++ quoted key.toList ++ layout.colon ++
      print layout (depth + 1) value ++ printEntries layout depth entries

/-- The items after the first of an array, and its closing bracket. -/
def printItems (layout : Layout) (depth : Nat) : List Json → List Char
  | [] => layout.lineStart depth ++ [']']
  | item :: items =>
    ',' :: layout.lineStart (depth + 1) ++ print layout (depth + 1) item ++
      printItems layout depth items

/-- The entries after the first of an object, and its closing brace. -/
def printEntries (layout : Layout) (depth : Nat) : List (String × Json) → List Char
  | [] => layout.lineStart depth ++ ['}']
  | (key, value) :: entries =>
    ',' :: layout.lineStart (depth + 1) ++ quoted key.toList ++ layout.colon ++
      print layout (depth + 1) value ++ printEntries layout depth entries

end

/-- The text of a value on one line. -/
def compact (value : Json) : String := String.ofList (print .compact 0 value)

/-- The text of a value with one item a line. -/
def pretty (value : Json) : String := String.ofList (print .pretty 0 value)

/-! ## Key order -/

/-- Entries in the order of their keys, by code points. -/
def inKeyOrder {α : Type} (entries : List (String × α)) : List (String × α) :=
  entries.mergeSort fun a b => decide (a.1 ≤ b.1)

mutual

/-- The value with the entries of every object in key order. -/
def sortKeys : Json → Json
  | array items => array (sortKeysItems items)
  | object entries => object (inKeyOrder (sortKeysEntries entries))
  | value => value

/-- Sorts the keys of every item. -/
def sortKeysItems : List Json → List Json
  | [] => []
  | item :: items => sortKeys item :: sortKeysItems items

/-- Sorts the keys below every entry. -/
def sortKeysEntries : List (String × Json) → List (String × Json)
  | [] => []
  | (key, value) :: entries => (key, sortKeys value) :: sortKeysEntries entries

end

/-- An array of strings. -/
def strings (items : List String) : Json := array (items.map string)

end Json

end SchemaAccess
