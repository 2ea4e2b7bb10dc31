import SchemaAccess.Document.Position
import SchemaAccess.Text.Name

/-!
# Tokens of a schema document

* `Token` — punctuators, names, numbers and strings.
* `Token.split?` — the token at the front of a text, its characters and the rest.
* `ignored` — the place and the text behind white space, commas and comments.
* `Lexed.ofText` — all tokens of a text with their places, up to the end or to the first thing
  that is no token.

Numbers and strings are delimited first and judged afterwards: a number that is not well formed is
no token, a string with an invalid escape is one that may not be used.  At most `maxOpen` brackets
may be open at a time; one more is no token.  `append_of_split?` says that splitting loses nothing.
-/

namespace SchemaAccess.Document

open Text

/-- A token of a schema document. -/
inductive Token where
  /-- A punctuator of one character. -/
  | punct (c : Char)
  /-- Three dots. -/
  | spread
  | name (name : String)
  /-- An integer as written. -/
  | integer (literal : List Char)
  | float
  /-- A quoted string: the text between its quotes, escapes unresolved. -/
  | quoted (raw : List Char)
  | block
  deriving DecidableEq

/-- The punctuators of one character. -/
def punctuators : List Char :=
  ['!', '$', ':', '=', '@', '|', '&', '(', ')', '[', ']', '\x7b', '\x7d']

/-! ## Numbers -/

/-- True of a character that ends a number. -/
def endsNumber (c : Char) : Bool :=
  [' ', '\n', '\r', '\t', ',', '#', '!', '$', ':', '=', '@', '|', '&', '(', ')', '[', ']',
    '\x7b', '\x7d'].contains c

/-- True of an integer: zero, or digits that do not begin with zero, after an optional sign. -/
def isInteger (s : List Char) : Bool :=
  match s with
  | ['0'] | ['-', '0'] => true
  | '0' :: _ | '-' :: '0' :: _ | ['-'] | [] => false
  | _ :: digits => digits.all Char.isDigit

/-- True of the digits after the point. -/
def isFraction (s : List Char) : Bool := !s.isEmpty && s.all Char.isDigit

/-- True of what follows the exponent mark: digits after a sign, or digits that begin with neither
zero nor nine. -/
def isExponent (s : List Char) : Bool :=
  match s with
  | [] => false
  | c :: digits =>
    if c = '-' ∨ c = '+' then !digits.isEmpty && digits.all Char.isDigit
    else '1' ≤ c && c ≤ '8' && digits.all Char.isDigit

/-- What stands before and behind the last character of a class. -/
def splitLast? (p : Char → Bool) (s : List Char) : Option (List Char × List Char) :=
  match s.reverse.dropWhile (!p ·) with
  | [] => none
  | _ :: front => some (front.reverse, (s.reverse.takeWhile (!p ·)).reverse)

/-- The token that a number's text makes, if it is well formed.  The last exponent mark and the
last point before it divide the text; a point behind the mark is an error. -/
def numberToken? (s : List Char) : Option Token :=
  match splitLast? (fun c => c == 'e' || c == 'E') s with
  | some (mantissa, exponent) =>
    if exponent.contains '.' then none
    else
      match splitLast? (· == '.') mantissa with
      | some (integer, fraction) =>
        if isInteger integer && isFraction fraction && isExponent exponent then some .float
        else none
      | none => if isInteger mantissa && isExponent exponent then some .float else none
  | none =>
    match splitLast? (· == '.') s with
    | some (integer, fraction) =>
      if isInteger integer && isFraction fraction then some .float else none
    | none => if isInteger s then some (.integer s) else none

/-! ## Strings -/

/-- The text of a quoted string up to its closing quote, and the rest.  A backslash keeps the next
character from ending the string; a line feed never belongs to it. -/
def quotedText? : List Char → Option (List Char × List Char)
  | [] => none
  | ['\\'] => none
  | '\\' :: c :: rest =>
    if c = '\n' then none
    else (quotedText? rest).map fun text => ('\\' :: c :: text.1, text.2)
  | '"' :: rest => some ([], rest)
  | '\n' :: _ => none
  | c :: rest => (quotedText? rest).map fun text => (c :: text.1, text.2)

/-- The text of a block string up to its closing quotes, and the rest.  A backslash before three
quotes makes them part of the text. -/
def blockText? : List Char → Option (List Char × List Char)
  | '\\' :: '"' :: '"' :: '"' :: rest =>
    (blockText? rest).map fun text => ('\\' :: '"' :: '"' :: '"' :: text.1, text.2)
  | '"' :: '"' :: '"' :: rest => some ([], rest)
  | c :: rest => (blockText? rest).map fun text => (c :: text.1, text.2)
  | [] => none

/-! ## One token -/

/-- A token with its characters and the text behind it. -/
structure Split where
  token : Token
  taken : List Char
  rest : List Char

/-- The token at the front of a text. -/
def Token.split? : List Char → Option Split
  | [] => none
  | '.' :: '.' :: '.' :: rest => some ⟨.spread, ['.', '.', '.'], rest⟩
  | '"' :: '"' :: '"' :: rest =>
    (blockText? rest).map fun text =>
      ⟨.block, ['"', '"', '"'] ++ text.1 ++ ['"', '"', '"'], text.2⟩
  | '"' :: rest =>
    (quotedText? rest).map fun text => ⟨.quoted text.1, '"' :: text.1 ++ ['"'], text.2⟩
  | c :: rest =>
    if punctuators.contains c then some ⟨.punct c, [c], rest⟩
    else if c = '-' ∨ c.isDigit then
      (numberToken? (c :: rest.takeWhile (!endsNumber ·))).map fun token =>
        ⟨token, c :: rest.takeWhile (!endsNumber ·), rest.dropWhile (!endsNumber ·)⟩
    else
      (name? (c :: rest)).map fun name => ⟨.name (String.ofList name.1), name.1, name.2⟩

theorem append_of_quotedText? (s text rest : List Char) (h : quotedText? s = some (text, rest)) :
    text ++ '"' :: rest = s := by
  fun_induction quotedText? s generalizing text rest with
  | case1 => simp at h
  | case2 => simp at h
  | case3 => simp at h
  | case4 c s _ ih =>
    obtain ⟨found, hf, he⟩ := Option.map_eq_some_iff.1 h
    simp only [Prod.mk.injEq] at he
    rw [← he.1, ← he.2, ← ih found.1 found.2 hf]
    rfl
  | case5 s =>
    simp only [Option.some.injEq, Prod.mk.injEq] at h
    rw [← h.1, ← h.2, List.nil_append]
  | case6 => simp at h
  | case7 c s _ _ _ _ ih =>
    obtain ⟨found, hf, he⟩ := Option.map_eq_some_iff.1 h
    simp only [Prod.mk.injEq] at he
    rw [← he.1, ← he.2, ← ih found.1 found.2 hf]
    rfl

theorem append_of_blockText? (s text rest : List Char) (h : blockText? s = some (text, rest)) :
    text ++ '"' :: '"' :: '"' :: rest = s := by
  fun_induction blockText? s generalizing text rest with
  | case1 s ih =>
    obtain ⟨found, hf, he⟩ := Option.map_eq_some_iff.1 h
    simp only [Prod.mk.injEq] at he
    rw [← he.1, ← he.2, ← ih found.1 found.2 hf]
    rfl
  | case2 s =>
    simp only [Option.some.injEq, Prod.mk.injEq] at h
    rw [← h.1, ← h.2, List.nil_append]
  | case3 c s _ _ ih =>
    obtain ⟨found, hf, he⟩ := Option.map_eq_some_iff.1 h
    simp only [Prod.mk.injEq] at he
    rw [← he.1, ← he.2, ← ih found.1 found.2 hf]
    rfl
  | case4 => simp at h

/-- The characters of a token and the text behind it make up the text. -/
theorem append_of_split? (s : List Char) (split : Split) (h : Token.split? s = some split) :
    split.taken ++ split.rest = s := by
  unfold Token.split? at h
  split at h
  · exact absurd h (by simp)
  · simp only [Option.some.injEq] at h
    rw [← h]
    rfl
  · obtain ⟨text, ht, he⟩ := Option.map_eq_some_iff.1 h
    rw [← he, ← append_of_blockText? _ text.1 text.2 ht]
    simp
  · obtain ⟨text, ht, he⟩ := Option.map_eq_some_iff.1 h
    rw [← he, ← append_of_quotedText? _ text.1 text.2 ht]
    simp
  · next c rest _ _ _ =>
    split at h
    · simp only [Option.some.injEq] at h
      rw [← h]
      rfl
    · split at h
      · obtain ⟨token, _, he⟩ := Option.map_eq_some_iff.1 h
        rw [← he]
        simp
      · obtain ⟨name, hn, he⟩ := Option.map_eq_some_iff.1 h
        rw [← he]
        exact append_of_name? hn

theorem taken_ne_nil (s : List Char) (split : Split) (h : Token.split? s = some split) :
    split.taken ≠ [] := by
  unfold Token.split? at h
  split at h
  · exact absurd h (by simp)
  · simp only [Option.some.injEq] at h
    simp [← h]
  · obtain ⟨text, _, he⟩ := Option.map_eq_some_iff.1 h
    simp [← he]
  · obtain ⟨text, _, he⟩ := Option.map_eq_some_iff.1 h
    simp [← he]
  · next c rest _ _ _ =>
    split at h
    · simp only [Option.some.injEq] at h
      simp [← h]
    · split at h
      · obtain ⟨token, _, he⟩ := Option.map_eq_some_iff.1 h
        simp [← he]
      · obtain ⟨name, hn, he⟩ := Option.map_eq_some_iff.1 h
        have := isName_of_name? hn
        rw [← he]
        intro hnil
        simp only at hnil
        rw [hnil] at this
        exact this

theorem length_lt_of_split? (s : List Char) (split : Split) (h : Token.split? s = some split) :
    split.rest.length < s.length := by
  have h₁ := congrArg List.length (append_of_split? s split h)
  have h₂ := List.length_pos_iff.2 (taken_ne_nil s split h)
  rw [List.length_append] at h₁
  omega

/-! ## Ignored characters -/

/-- The place and the text behind a comment: the character that ends it starts a line. -/
def afterComment (p : Position) : List Char → Position × List Char
  | [] => (p, [])
  | c :: rest => if c = '\n' ∨ c = '\r' then (⟨p.line + 1, 1⟩, rest) else afterComment p rest

theorem length_afterComment_le (p : Position) : ∀ s : List Char,
    (afterComment p s).2.length ≤ s.length
  | [] => Nat.le_refl _
  | c :: rest => by
      unfold afterComment
      split
      · exact Nat.le_succ _
      · exact Nat.le_succ_of_le (length_afterComment_le p rest)

/-- The place and the text behind everything that is ignored between tokens.  A tab takes eight
columns; a carriage return and a byte order mark take none. -/
def ignored (p : Position) (s : List Char) : Position × List Char :=
  match s with
  | [] => (p, [])
  | c :: rest =>
    if c = ' ' ∨ c = ',' then ignored ⟨p.line, p.column + 1⟩ rest
    else if c = '\t' then ignored ⟨p.line, p.column + 8⟩ rest
    else if c = '\n' then ignored ⟨p.line + 1, 1⟩ rest
    else if c = '\r' ∨ c = '\uFEFF' then ignored p rest
    else if c = '#' then
      ignored (afterComment p rest).1 (afterComment p rest).2
    else (p, s)
termination_by s.length
decreasing_by
  all_goals first
    | exact Nat.lt_succ_of_le (length_afterComment_le p rest)
    | simp

theorem length_ignored_le (p : Position) (s : List Char) :
    (ignored p s).2.length ≤ s.length := by
  fun_induction ignored p s with
  | case1 => exact Nat.le_refl _
  | case2 p c rest _ ih => exact Nat.le_succ_of_le ih
  | case3 p rest _ ih => exact Nat.le_succ_of_le ih
  | case4 p rest _ _ ih => exact Nat.le_succ_of_le ih
  | case5 p c rest _ _ _ _ ih => exact Nat.le_succ_of_le ih
  | case6 p rest _ _ _ _ ih =>
    exact Nat.le_succ_of_le (Nat.le_trans ih (length_afterComment_le p rest))
  | case7 => exact Nat.le_refl _

/-! ## All tokens -/

/-- A token with its place. -/
structure Lexeme where
  token : Token
  position : Position

/-- The tokens of a text. -/
structure Lexed where
  lexemes : List Lexeme
  /-- The place behind the last token: of the end of the text, or of what is no token. -/
  stop : Position
  /-- True if the tokens reach to the end of the text. -/
  complete : Bool

/-- How many brackets may be open at a time. -/
def maxOpen : Nat := 50

/-- The number of open brackets behind a token; none if there are too many. -/
def openAfter? (depth : Nat) : Token → Option Nat
  | .punct c =>
    if c = '(' ∨ c = '[' ∨ c = '\x7b' then if depth < maxOpen then some (depth + 1) else none
    else if c = ')' ∨ c = ']' ∨ c = '\x7d' then some (depth - 1)
    else some depth
  | _ => some depth

/-- The tokens of the text that stands at a place, inside this many brackets. -/
def Lexed.ofTextAt (p : Position) (depth : Nat) (s : List Char) : Lexed :=
  match _hs : Token.split? (ignored p s).2 with
  | none => ⟨[], (ignored p s).1, (ignored p s).2.isEmpty⟩
  | some split =>
    match openAfter? depth split.token with
    | none => ⟨[], (ignored p s).1, false⟩
    | some depth =>
      let more := ofTextAt ((ignored p s).1.after split.taken) depth split.rest
      { more with lexemes := ⟨split.token, (ignored p s).1⟩ :: more.lexemes }
termination_by s.length
decreasing_by
  exact Nat.lt_of_lt_of_le (length_lt_of_split? _ _ _hs) (length_ignored_le p s)

/-- The tokens of a text. -/
def Lexed.ofText (s : List Char) : Lexed := ofTextAt .start 0 s

end SchemaAccess.Document
