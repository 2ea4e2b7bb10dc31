import SchemaAccess.Document.Definition
import SchemaAccess.Document.Token
import SchemaAccess.Text.Digits

/-!
# The grammar of schema documents

One reader for each construct of the grammar.  Every choice is made on the next token, so the first
token that does not fit what was read before it is the one that is wrong, and a failure is the
number of tokens that were left when it was met.  Two constructs are judged once they have been
read, and are refused at their keyword: a schema definition with an unknown or repeated operation,
and an extension that adds nothing.

* `Reader` — reads tokens; `many` repeats a reader as long as the next token begins an item.
* `typeRef`, `value`, `directives`, `field`, … — the constructs.
* `document` — one or more definitions.
* `parse` — the definitions of a text, or the place of the token that is wrong.
-/

namespace SchemaAccess.Document

/-- Reads something from the front of a list of tokens; a failure is the number of tokens left. -/
abbrev Reader := StateT (List Token) (Except Nat)

/-! ## Combining readers -/

/-- Fails where this many tokens are left. -/
def refuseAt {α : Type} (left : Nat) : Reader α := fun _ => .error left

/-- The number of tokens left. -/
def left : Reader Nat := fun s => .ok (s.length, s)

/-- Reads with `reader` if the next token is of a class, and takes nothing otherwise. -/
def ifNext {α : Type} (p : Token → Bool) (reader : Reader α) (otherwise : α) : Reader α
  | [] => .ok (otherwise, [])
  | t :: s => if p t then reader (t :: s) else .ok (otherwise, t :: s)

/-- Reads items as long as the next token begins one and the last item took something. -/
def many {α : Type} (begins : Token → Bool) (item : Reader α) (s : List Token) :
    Except Nat (List α × List Token) :=
  if s.head?.any begins then
    match item s with
    | .error n => .error n
    | .ok (a, rest) =>
      if rest.length < s.length then
        match many begins item rest with
        | .error n => .error n
        | .ok (as, rest) => .ok (a :: as, rest)
      else .ok ([a], rest)
  else .ok ([], s)
termination_by s.length

/-- Reads one or more items. -/
def many1 {α : Type} (begins : Token → Bool) (item : Reader α) : Reader (List α) := do
  let first ← item
  let more ← many begins item
  return first :: more

/-! ## Tokens -/

/-- Takes a punctuator. -/
def punct (c : Char) : Reader Unit
  | .punct d :: s => if c = d then .ok ((), s) else .error (s.length + 1)
  | s => .error s.length

/-- Takes a name. -/
def name : Reader String
  | .name n :: s => .ok (n, s)
  | s => .error s.length

/-- Takes a certain name. -/
def keyword (word : String) : Reader Unit
  | .name n :: s => if n = word then .ok ((), s) else .error (s.length + 1)
  | s => .error s.length

/-- True of a name. -/
def isName : Token → Bool
  | .name _ => true
  | _ => false

/-- True of a string of either kind. -/
def isString : Token → Bool
  | .quoted _ | .block => true
  | _ => false

/-- True of a token that begins an item with an optional description. -/
def beginsDescribed (t : Token) : Bool := isName t || isString t

/-- True of a punctuator. -/
def isPunct (c : Char) (t : Token) : Bool := t = .punct c

/-! ## Strings and numbers -/

/-- True of the four characters of a code point that is not a surrogate; a plus sign may stand in
front of the digits. -/
def isCodePoint (digits : List Char) : Bool :=
  let digits := match digits with
    | '+' :: rest => rest
    | digits => digits
  match Text.hexNumber? digits with
  | some n => n < 0xD800 || 0xDFFF < n
  | none => false

/-- True of the text of a quoted string whose escapes are all valid. -/
def hasValidEscapes : List Char → Bool
  | [] => true
  | '\\' :: 'u' :: a :: b :: c :: d :: rest => isCodePoint [a, b, c, d] && hasValidEscapes rest
  | '\\' :: c :: rest =>
    ['"', '\\', '/', 'b', 'f', 'n', 'r', 't'].contains c && hasValidEscapes rest
  | ['\\'] => false
  | _ :: rest => hasValidEscapes rest

/-- True of an integer that fits into 64 bits. -/
def isInteger64 (literal : List Char) : Bool :=
  match literal with
  | '-' :: digits => Text.digitsValue digits ≤ Nat.pow 2 63
  | digits => Text.digitsValue digits < Nat.pow 2 63

/-- Takes a string. -/
def string : Reader Unit
  | .quoted raw :: s => if hasValidEscapes raw then .ok ((), s) else .error (s.length + 1)
  | .block :: s => .ok ((), s)
  | s => .error s.length

/-- Takes a description, if there is one. -/
def description : Reader Unit := ifNext isString string ()

/-! ## Types -/

/-- Closes the lists that are open around a type. -/
def closeLists : Nat → TypeRef → Reader TypeRef
  | 0, t, s => .ok (t, s)
  | n + 1, t, .punct ']' :: .punct '!' :: s => closeLists n (.list t true) s
  | n + 1, t, .punct ']' :: s => closeLists n (.list t false) s
  | _ + 1, _, s => .error s.length

/-- Reads a type inside open lists, and closes them. -/
def typeIn (lists : Nat) : Reader TypeRef
  | .punct '[' :: s => typeIn (lists + 1) s
  | .name n :: .punct '!' :: s => closeLists lists (.named n true) s
  | .name n :: s => closeLists lists (.named n false) s
  | s => .error s.length

/-- Reads a type. -/
def typeRef : Reader TypeRef := typeIn 0

/-! ## Values -/

/-- Reads a value in which at most this many brackets are open at a time; constants have no
variables. -/
def value (withVariables : Bool) : Nat → Reader Unit
  | depth, s =>
    match s with
    | .name _ :: rest => .ok ((), rest)
    | .float :: rest => .ok ((), rest)
    | .integer literal :: rest => if isInteger64 literal then .ok ((), rest) else .error s.length
    | .quoted _ :: _ => string s
    | .block :: _ => string s
    | .punct '$' :: rest =>
      if withVariables then
        (name rest).map fun read => ((), read.2)
      else .error s.length
    | .punct '[' :: rest =>
      match depth with
      | 0 => .error s.length
      | depth + 1 =>
        match many (!isPunct ']' ·) (value withVariables depth) rest with
        | .error n => .error n
        | .ok (_, rest) => punct ']' rest
    | .punct '\x7b' :: rest =>
      match depth with
      | 0 => .error s.length
      | depth + 1 =>
        match many (!isPunct '\x7d' ·) (fun s =>
            match name s with
            | .error n => .error n
            | .ok (_, s) =>
              match punct ':' s with
              | .error n => .error n
              | .ok (_, s) => value withVariables depth s) rest with
        | .error n => .error n
        | .ok (_, rest) => punct '\x7d' rest
    | s => .error s.length

/-! ## Parts of definitions -/

/-- Reads the arguments of a directive. -/
def directiveArgument : Reader Unit := do
  let _ ← name
  punct ':'
  value true maxOpen

/-- Reads a directive and returns its name. -/
def directive : Reader String := do
  punct '@'
  let n ← name
  ifNext (isPunct '(') (do
    punct '('
    let _ ← many1 isName directiveArgument
    punct ')') ()
  return n

/-- Reads a possibly empty run of directives and returns their names. -/
def directives : Reader (List String) := many (isPunct '@') directive

/-- Reads an argument or input field; its default value is checked only. -/
def typedName : Reader TypedName := do
  description
  let n ← name
  punct ':'
  let t ← typeRef
  ifNext (isPunct '=') (do
    punct '='
    value false maxOpen) ()
  let _ ← directives
  return (n, t)

/-- Reads one or more items between brackets, if the opening bracket comes next. -/
def optionalItems {α : Type} (opening closing : Char) (item : Reader α) : Reader (List α) :=
  ifNext (isPunct opening) (do
    punct opening
    let items ← many1 beginsDescribed item
    punct closing
    return items) []

/-- Reads the arguments of a field, if there are any. -/
def arguments : Reader (List TypedName) := optionalItems '(' ')' typedName

/-- Reads a field of an object type. -/
def field : Reader FieldDefinition := do
  description
  let n ← name
  let args ← arguments
  punct ':'
  let t ← typeRef
  let ds ← directives
  return ⟨n, args, t, ds⟩

/-- Reads the fields of an object type in braces, if there are any. -/
def fields : Reader (List FieldDefinition) := optionalItems '\x7b' '\x7d' field

/-- Reads names separated by a punctuator, which may also stand in front of the first. -/
def separated (c : Char) (item : Reader String) : Reader (List String) := do
  ifNext (isPunct c) (punct c) ()
  let first ← item
  let more ← many (isPunct c) (do
    punct c
    item)
  return first :: more

/-- Reads the interfaces of a type, if there are any. -/
def interfaces : Reader (List String) :=
  ifNext (· = .name "implements") (do
    keyword "implements"
    separated '&' name) []

/-- Reads the value of an enum. -/
def enumValue : Reader String := do
  description
  let n ← name
  let _ ← directives
  return n

/-- Reads the members of a union, if there are any. -/
def members : Reader (List String) :=
  ifNext (isPunct '=') (do
    punct '='
    separated '|' name) []

/-- The places where a directive may be used. -/
def directiveLocations : List String :=
  ["QUERY", "MUTATION", "SUBSCRIPTION", "FIELD", "FRAGMENT_DEFINITION", "FRAGMENT_SPREAD",
    "INLINE_FRAGMENT", "VARIABLE_DEFINITION", "SCHEMA", "SCALAR", "OBJECT", "FIELD_DEFINITION",
    "ARGUMENT_DEFINITION", "INTERFACE", "UNION", "ENUM", "ENUM_VALUE", "INPUT_OBJECT",
    "INPUT_FIELD_DEFINITION"]

/-- Reads a place where a directive may be used. -/
def directiveLocation : Reader String
  | .name n :: s => if n ∈ directiveLocations then .ok (n, s) else .error (s.length + 1)
  | s => .error s.length

/-! ## Definitions -/

/-- Reads the definition of a type or directive, and whether it adds anything to its name: an
extension has to. -/
def typeDefinition : Reader (Definition × Bool)
  | .name "scalar" :: s => (do
      let _ ← name
      let ds ← directives
      return (.other, !ds.isEmpty) : Reader (Definition × Bool)) s
  | .name "type" :: s => (do
      let n ← name
      let is ← interfaces
      let ds ← directives
      let fs ← fields
      return (.object n ds fs, !(is.isEmpty && ds.isEmpty && fs.isEmpty)) :
        Reader (Definition × Bool)) s
  | .name "interface" :: s => (do
      let _ ← name
      let _ ← interfaces
      let ds ← directives
      let fs ← fields
      return (.other, !(ds.isEmpty && fs.isEmpty)) : Reader (Definition × Bool)) s
  | .name "union" :: s => (do
      let _ ← name
      let ds ← directives
      let ms ← members
      return (.other, !(ds.isEmpty && ms.isEmpty)) : Reader (Definition × Bool)) s
  | .name "enum" :: s => (do
      let n ← name
      let ds ← directives
      let vs ← optionalItems '\x7b' '\x7d' enumValue
      return (.enum n vs, !(ds.isEmpty && vs.isEmpty)) : Reader (Definition × Bool)) s
  | .name "input" :: s => (do
      let n ← name
      let ds ← directives
      let fs ← optionalItems '\x7b' '\x7d' typedName
      return (.input n fs, !(ds.isEmpty && fs.isEmpty)) : Reader (Definition × Bool)) s
  | s => .error s.length

/-- Reads the definition of a directive. -/
def directiveDefinition : Reader Definition := do
  keyword "directive"
  punct '@'
  let _ ← name
  let _ ← arguments
  ifNext (· = .name "repeatable") (keyword "repeatable") ()
  keyword "on"
  let _ ← ifNext (fun t => isName t || isPunct '|' t) (separated '|' directiveLocation) []
  return .other

/-- Reads one operation of a schema definition. -/
def schemaOperation : Reader (String × String) := do
  let operation ← name
  punct ':'
  let type ← name
  return (operation, type)

/-- Reads a schema definition.  It names each of the three operation types at most once, and is
refused at its keyword otherwise. -/
def schemaDefinition : Reader Definition := do
  let start ← left
  keyword "schema"
  let _ ← directives
  punct '\x7b'
  let operations ← many isName schemaOperation
  punct '\x7d'
  let names := operations.map Prod.fst
  if names.all (["query", "mutation", "subscription"].contains ·) && decide names.Nodup then
    return .schema (operations.lookup "query") (operations.lookup "mutation")
  else refuseAt start

/-- What an extension contributes: the fields of an object type, and nothing otherwise. -/
def Definition.extension : Definition → Definition
  | .object name _ fields => .extendObject name fields
  | _ => .other

/-- Reads an extension.  One that adds nothing is refused at the keyword of what it extends. -/
def extension : Reader Definition := do
  keyword "extend"
  let start ← left
  let (definition, adds) ← typeDefinition
  if adds then return definition.extension else refuseAt start

/-- Reads a definition. -/
def definition : Reader Definition
  | .name "schema" :: s => schemaDefinition (.name "schema" :: s)
  | .name "extend" :: s => extension (.name "extend" :: s)
  | s => (do
      description
      fun s =>
        match s with
        | .name "directive" :: _ => directiveDefinition s
        | _ => (typeDefinition s).map fun read => (read.1.1, read.2) : Reader Definition) s

/-- Reads a document. -/
def document : Reader (List Definition) := many1 (fun _ => true) definition

/-! ## Texts -/

/-- The place of the token at which this many tokens were left. -/
def Lexed.position (lexed : Lexed) (left : Nat) : Position :=
  match lexed.lexemes.drop (lexed.lexemes.length - left) with
  | lexeme :: _ => lexeme.position
  | [] => lexed.stop

/-- The definitions of a text, or the place of the token that is wrong. -/
def parse (text : String) : Except Position (List Definition) :=
  let lexed := Lexed.ofText text.toList
  match document (lexed.lexemes.map Lexeme.token) with
  | .error left => .error (lexed.position left)
  | .ok (definitions, rest) =>
    if rest.isEmpty && lexed.complete then .ok definitions
    else .error (lexed.position rest.length)

end SchemaAccess.Document
