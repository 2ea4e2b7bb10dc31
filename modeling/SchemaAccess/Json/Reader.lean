import SchemaAccess.Json.Basic
import SchemaAccess.Json.Magnitude

/-!
# Reading JSON against an expected shape

A document is read from left to right against the shape that its place in a configuration demands,
and the first problem ends the reading.  There are three problems: the text ends too early, the
text is not JSON, or the text is JSON of another shape.

* `Problem` — the three.
* `scalar`, `value` — a value of any shape; `value` is told how many brackets may still be opened.
* `text`, `boolean`, `listOf`, `foldEntries` — values of one shape.  A list or an object in the
  wrong place is refused where it starts, a scalar only once it has been read.
* `whole` — a document: one value and nothing after it.

`foldItems` is the loop under every list and object.  It goes on only while each step takes
something away from the text, which makes it total; every step here does.
-/

namespace SchemaAccess.Json

/-- Why a document cannot be read. -/
inductive Problem where
  /-- The text ends inside a value. -/
  | ended
  /-- The text is not JSON. -/
  | malformed
  /-- The text is JSON of another shape than the expected one. -/
  | mistyped
  deriving DecidableEq

/-- Reads something from the front of a text and returns it with the rest. -/
abbrev Reader (α : Type) := List Char → Except Problem (α × List Char)

namespace Reader

/-- How strictly scalars are read: values that are kept are checked, values that are passed over
need only be well delimited. -/
inductive Care where
  | keeping
  | skipping
  deriving DecidableEq

/-! ## Leaves -/

/-- JSON's own white space. -/
def isSpace (c : Char) : Bool := c == ' ' || c == '\t' || c == '\n' || c == '\r'

/-- The text without leading white space. -/
def skipSpace (s : List Char) : List Char := s.dropWhile isSpace

/-- Reads a fixed word. -/
def word : List Char → List Char → Except Problem (List Char)
  | [], s => .ok s
  | _ :: _, [] => .error .ended
  | w :: ws, c :: cs => if w = c then word ws cs else .error .malformed

/-- Reads the four digits of a code unit.  Fewer than four bytes of text are too few, whatever they
are. -/
def codeUnit : Reader Nat
  | a :: b :: c :: d :: rest =>
    match Text.hexNumber? [a, b, c, d] with
    | some unit => .ok (unit, rest)
    | none => .error .malformed
  | s => .error (if s.foldl (fun n c => n + c.utf8Size) 0 < 4 then .ended else .malformed)

/-- Reads what follows `\u`: one code unit, or two that make up a character beyond the first plane.
A surrogate without its partner is refused. -/
def unicodeEscape (s : List Char) : Except Problem (Char × List Char) :=
  match codeUnit s with
  | .error p => .error p
  | .ok (high, rest) =>
    if 0xDC00 ≤ high ∧ high ≤ 0xDFFF then .error .malformed
    else if high < 0xD800 ∨ 0xDBFF < high then .ok (Char.ofNat high, rest)
    else
      match word ['\\', 'u'] rest with
      | .error p => .error p
      | .ok rest =>
        match codeUnit rest with
        | .error p => .error p
        | .ok (low, rest) =>
          if 0xDC00 ≤ low ∧ low ≤ 0xDFFF then
            .ok (Char.ofNat (0x10000 + (high - 0xD800) * 0x400 + (low - 0xDC00)), rest)
          else .error .malformed

/-- Reads what follows a backslash. -/
def escape (care : Care) : Reader Char
  | [] => .error .ended
  | '"' :: rest => .ok ('"', rest)
  | '\\' :: rest => .ok ('\\', rest)
  | '/' :: rest => .ok ('/', rest)
  | 'b' :: rest => .ok ('\x08', rest)
  | 'f' :: rest => .ok ('\x0c', rest)
  | 'n' :: rest => .ok ('\n', rest)
  | 'r' :: rest => .ok ('\r', rest)
  | 't' :: rest => .ok ('\t', rest)
  | 'u' :: rest =>
    match care with
    | .keeping => unicodeEscape rest
    | .skipping => (codeUnit rest).map fun unit => (Char.ofNat unit.1, unit.2)
  | _ :: _ => .error .malformed

/-- Reads the characters of a string up to its closing quote. -/
def stringBody (care : Care) : List Char → Except Problem (List Char × List Char)
  | [] => .error .ended
  | '"' :: rest => .ok ([], rest)
  | '\\' :: rest =>
    match escape care rest with
    | .error p => .error p
    | .ok (c, after) =>
      if after.length ≤ rest.length then
        (stringBody care after).map fun body => (c :: body.1, body.2)
      else .error .malformed
  | c :: rest =>
    if c.toNat < 0x20 then .error .malformed
    else (stringBody care rest).map fun body => (c :: body.1, body.2)
termination_by s => s.length

/-! ## Numbers -/

/-- The problem with a number whose text ends where a digit is needed.  A number that is passed over
is malformed then, since nothing waits for the rest of it. -/
def unfinishedNumber : Care → Problem
  | .keeping => .ended
  | .skipping => .malformed

/-- Reads one or more digits. -/
def digits1 (care : Care) (s : List Char) : Except Problem (List Char × List Char) :=
  match s with
  | [] => .error (unfinishedNumber care)
  | c :: _ =>
    if c.isDigit then .ok (s.takeWhile Char.isDigit, s.dropWhile Char.isDigit)
    else .error .malformed

/-- Reads digits without a superfluous leading zero. -/
def integerDigits (care : Care) (s : List Char) : Except Problem (List Char × List Char) :=
  match digits1 care s with
  | .error p => .error p
  | .ok (digits, rest) =>
    if digits.head? = some '0' ∧ 1 < digits.length then .error .malformed else .ok (digits, rest)

/-- Reads the fraction of a number, if one follows. -/
def fraction (care : Care) : List Char → Except Problem (List Char × List Char)
  | '.' :: rest => digits1 care rest
  | rest => .ok ([], rest)

/-- Reads the exponent of a number, if one follows: whether it is negative, and its digits. -/
def exponent (care : Care) : List Char → Except Problem ((Bool × List Char) × List Char)
  | c :: rest =>
    if c = 'e' ∨ c = 'E' then
      match rest with
      | '+' :: after => (digits1 care after).map fun ds => ((false, ds.1), ds.2)
      | '-' :: after => (digits1 care after).map fun ds => ((true, ds.1), ds.2)
      | after => (digits1 care after).map fun ds => ((false, ds.1), ds.2)
    else .ok ((false, []), c :: rest)
  | [] => .ok ((false, []), [])

/-- Reads a number.  One that is kept must be finite. -/
def number (care : Care) (s : List Char) : Except Problem (Json × List Char) := do
  let unsigned := match s with
    | '-' :: rest => rest
    | rest => rest
  let (integer, rest) ← integerDigits care unsigned
  let (fraction, rest) ← fraction care rest
  let ((smaller, exponent), rest) ← exponent care rest
  let parts : NumberParts := ⟨integer, fraction, smaller, exponent⟩
  if care = .keeping ∧ parts.magnitude.isInfinite then .error .malformed
  else .ok (.number (String.ofList (s.take (s.length - rest.length))), rest)

/-! ## Values of any shape -/

/-- Reads a value that is neither an array nor an object. -/
def scalar (care : Care) : Reader Json
  | [] => .error .ended
  | 'n' :: rest => (word ['u', 'l', 'l'] rest).map fun rest => (.null, rest)
  | 't' :: rest => (word ['r', 'u', 'e'] rest).map fun rest => (.bool true, rest)
  | 'f' :: rest => (word ['a', 'l', 's', 'e'] rest).map fun rest => (.bool false, rest)
  | '"' :: rest =>
    (stringBody care rest).map fun body => (.string (String.ofList body.1), body.2)
  | c :: rest => if c = '-' ∨ c.isDigit then number care (c :: rest) else .error .malformed

/-- Goes through items separated by commas, of which the text starts with one, up to the closing
bracket. -/
def foldMore {σ : Type} (close : Char) (step : σ → Reader σ) (acc : σ) (s : List Char) :
    Except Problem (σ × List Char) :=
  match step acc s with
  | .error p => .error p
  | .ok (acc, rest) =>
    match skipSpace rest with
    | [] => .error .ended
    | c :: after =>
      if c = close then .ok (acc, after)
      else if c = ',' ∧ (skipSpace after).length < s.length then
        foldMore close step acc (skipSpace after)
      else .error .malformed
termination_by s.length

/-- Goes through the items after an opening bracket, up to the closing one. -/
def foldItems {σ : Type} (close : Char) (step : σ → Reader σ) (acc : σ) (s : List Char) :
    Except Problem (σ × List Char) :=
  match skipSpace s with
  | [] => .error .ended
  | c :: after => if c = close then .ok (acc, after) else foldMore close step acc (c :: after)

/-- Reads the key of an entry. -/
def keyName (care : Care) : Reader String
  | [] => .error .ended
  | '"' :: rest => (stringBody care rest).map fun body => (String.ofList body.1, body.2)
  | _ :: _ => .error .malformed

/-- Passes over the colon after a key. -/
def colon (s : List Char) : Except Problem (List Char) :=
  match skipSpace s with
  | [] => .error .ended
  | ':' :: after => .ok after
  | _ :: _ => .error .malformed

/-- Reads the key of an entry and the colon after it. -/
def key (care : Care) : Reader String := fun s =>
  match keyName care s with
  | .error p => .error p
  | .ok (name, rest) => (colon rest).map fun after => (name, after)

/-- Reads a value in which at most this many brackets are open at a time. -/
def value (care : Care) : Nat → Reader Json
  | depth, s =>
    match skipSpace s with
    | '[' :: rest =>
      match depth with
      | 0 => .error .malformed
      | depth + 1 =>
        (foldItems ']' (fun items s =>
          (value care depth s).map fun item => (items ++ [item.1], item.2)) [] rest).map
          fun items => (.array items.1, items.2)
    | '{' :: rest =>
      match depth with
      | 0 => .error .malformed
      | depth + 1 =>
        (foldItems '}' (fun entries s =>
          match key care s with
          | .error p => .error p
          | .ok (k, s) =>
            (value care depth s).map fun item => (entries ++ [(k, item.1)], item.2)) [] rest).map
          fun entries => (.object entries.1, entries.2)
    | rest => scalar care rest

/-! ## Values of one shape -/

/-- The problem with a value that stands where another shape is expected: a scalar is read first,
and its own problem wins. -/
def mismatch (s : List Char) : Problem :=
  match s with
  | '[' :: _ => .mistyped
  | '{' :: _ => .mistyped
  | s =>
    match scalar .keeping s with
    | .error p => p
    | .ok _ => .mistyped

/-- Reads a string. -/
def text (s : List Char) : Except Problem (String × List Char) :=
  match skipSpace s with
  | '"' :: rest => (stringBody .keeping rest).map fun body => (String.ofList body.1, body.2)
  | rest => .error (mismatch rest)

/-- Reads `true` or `false`. -/
def boolean (s : List Char) : Except Problem (Bool × List Char) :=
  match skipSpace s with
  | 't' :: rest => (word ['r', 'u', 'e'] rest).map fun rest => (true, rest)
  | 'f' :: rest => (word ['a', 'l', 's', 'e'] rest).map fun rest => (false, rest)
  | rest => .error (mismatch rest)

/-- Reads a list whose items are told how many more brackets may be opened. -/
def listOf {α : Type} (item : Nat → Reader α) (depth : Nat) (s : List Char) :
    Except Problem (List α × List Char) :=
  match skipSpace s with
  | '[' :: rest =>
    match depth with
    | 0 => .error .malformed
    | depth + 1 =>
      foldItems ']' (fun items s =>
        (item depth s).map fun read => (items ++ [read.1], read.2)) [] rest
  | rest => .error (mismatch rest)

/-- Goes through the entries of an object: each key is handed on together with what has been
gathered so far. -/
def foldEntries {σ : Type} (entry : Nat → String → σ → Reader σ) (start : σ) (depth : Nat)
    (s : List Char) : Except Problem (σ × List Char) :=
  match skipSpace s with
  | '{' :: rest =>
    match depth with
    | 0 => .error .malformed
    | depth + 1 =>
      foldItems '}' (fun acc s =>
        match key .keeping s with
        | .error p => .error p
        | .ok (k, s) => entry depth k acc s) start rest
  | rest => .error (mismatch rest)

/-- Reads a document: one value with nothing but white space around it. -/
def whole {α : Type} (reader : Reader α) (document : String) : Except Problem α :=
  match reader document.toList with
  | .error p => .error p
  | .ok (a, rest) => if (skipSpace rest).isEmpty then .ok a else .error .malformed

/-- How many brackets may be open at a time in a document. -/
def maxDepth : Nat := 127

end Reader

end SchemaAccess.Json
