import SchemaAccess.Text.Affix
import SchemaAccess.Text.Blank
import SchemaAccess.Text.Letters
import SchemaAccess.Text.Name

/-!
# Finding blocks, fields and parameters in cleaned text

A cleaned schema is not parsed.  It is searched from left to right for three patterns, and whatever
matches none of them is passed over.

* `block?` — keyword, name, anything without braces, and a body in braces without further braces.
* `field?` — name, optional arguments in parentheses, colon, type, directives without arguments.
* `param?` — name, colon, type.
* `occurrences`, `blocks` — everything that is found in a text.

Each recogniser takes the longest name, type and run of directives it can; a shorter choice never
helps, because what follows could not go on from there.  A search tries every position in turn and
goes on behind a match, which is shorter than the text: `length_lt_of_field?` and its siblings.  A
block begins at a word boundary, a field or parameter may begin anywhere, also inside a longer
word.
-/

namespace SchemaAccess.Loose

open Text

/-! ## Leaves -/

/-- True of a character in a type. -/
def isTypeChar (c : Char) : Bool := isNameChar c || c == '[' || c == ']' || c == '!'

/-- The longest type at the front of a text, and the rest. -/
def type? (s : List Char) : Option (List Char × List Char) :=
  match s.takeWhile isTypeChar with
  | [] => none
  | type => some (type, s.dropWhile isTypeChar)

/-- A colon and the type after it, with white space around the colon. -/
def typed? (s : List Char) : Option (List Char × List Char) :=
  match s.dropWhile isBlank with
  | ':' :: rest => type? (rest.dropWhile isBlank)
  | _ => none

/-- What stands before the next closing parenthesis, if the text begins with an opening one. -/
def parenthesized? : List Char → Option (List Char × List Char)
  | '(' :: inner =>
    match inner.dropWhile (· ≠ ')') with
    | ')' :: rest => some (inner.takeWhile (· ≠ ')'), rest)
    | _ => none
  | _ => none

/-- The longest run of directives at the front of a text, with the white space before each, and
the rest. -/
def directiveRun (s : List Char) : List Char × List Char :=
  match _hs : s.dropWhile isBlank with
  | '@' :: rest =>
    match _hn : name? rest with
    | some (name, rest) =>
      let (more, rest) := directiveRun rest
      (s.takeWhile isBlank ++ '@' :: name ++ more, rest)
    | none => ([], s)
  | _ => ([], s)
termination_by s.length
decreasing_by
  have h₁ := (List.dropWhile_suffix (l := s) isBlank).length_le
  have h₂ := length_lt_of_name? _hn
  rw [_hs, List.length_cons] at h₁
  omega

/-! ## Fields and parameters -/

/-- A field as found in the body of a block. -/
structure Field where
  name : List Char
  /-- The text between the parentheses, if there are any. -/
  arguments : Option (List Char)
  type : List Char
  /-- The directives, each after its white space. -/
  directives : List Char

/-- A field at the front of a text, and the rest. -/
def field? (s : List Char) : Option (Field × List Char) := do
  let (name, rest) ← name? s
  let rest := rest.dropWhile isBlank
  let (arguments, rest) := match parenthesized? rest with
    | some (arguments, rest) => (some arguments, rest)
    | none => (none, rest)
  let (type, rest) ← typed? rest
  let (directives, rest) := directiveRun rest
  some (⟨name, arguments, type, directives⟩, rest)

/-- A parameter with its type at the front of a text, and the rest. -/
def param? (s : List Char) : Option ((List Char × List Char) × List Char) := do
  let (name, rest) ← name? s
  let (type, rest) ← typed? rest
  some ((name, type), rest)

/-! ## Matches take something away -/

theorem length_le_of_type? {s type rest : List Char} (h : type? s = some (type, rest)) :
    rest.length ≤ s.length := by
  unfold type? at h
  split at h
  · simp at h
  · simp only [Option.some.injEq, Prod.mk.injEq] at h
    rw [← h.2]
    exact (List.dropWhile_suffix _).length_le

theorem length_le_of_typed? {s type rest : List Char} (h : typed? s = some (type, rest)) :
    rest.length ≤ s.length := by
  unfold typed? at h
  split at h
  · next inner hs =>
    have h₁ := (List.dropWhile_suffix (l := s) isBlank).length_le
    have h₂ := (List.dropWhile_suffix (l := inner) isBlank).length_le
    have h₃ := length_le_of_type? h
    rw [hs, List.length_cons] at h₁
    omega
  · simp at h

theorem length_le_of_parenthesized? {s inside rest : List Char}
    (h : parenthesized? s = some (inside, rest)) : rest.length ≤ s.length := by
  unfold parenthesized? at h
  split at h
  · next inner =>
    split at h
    · next after hs =>
      have h₁ := (List.dropWhile_suffix (l := inner) (· ≠ ')')).length_le
      simp only [Option.some.injEq, Prod.mk.injEq] at h
      rw [hs, List.length_cons, h.2] at h₁
      simp only [List.length_cons]
      omega
    · simp at h
  · simp at h

theorem length_directiveRun_le (s : List Char) : (directiveRun s).2.length ≤ s.length := by
  fun_induction directiveRun s with
  | case1 s rest hs name after hn more last hr ih =>
    have h₁ := (List.dropWhile_suffix (l := s) isBlank).length_le
    have h₂ := length_lt_of_name? hn
    rw [hs, List.length_cons] at h₁
    rw [hr] at ih
    simp only at ih ⊢
    omega
  | case2 => exact Nat.le_refl _
  | case3 => exact Nat.le_refl _

theorem length_lt_of_field? {s rest : List Char} {field : Field}
    (h : field? s = some (field, rest)) : rest.length < s.length := by
  simp only [field?, bind, Option.bind_eq_some_iff] at h
  obtain ⟨⟨name, afterName⟩, hname, h⟩ := h
  obtain ⟨⟨type, afterType⟩, htype, h⟩ := h
  simp only [Option.some.injEq, Prod.mk.injEq] at h
  have h₁ := length_lt_of_name? hname
  have h₂ := (List.dropWhile_suffix (l := afterName) isBlank).length_le
  have h₃ := length_le_of_typed? htype
  have h₄ := length_directiveRun_le afterType
  rw [h.2] at h₄
  cases hp : parenthesized? (afterName.dropWhile isBlank) with
  | none =>
    rw [hp] at h₃
    simp only at h₃
    omega
  | some found =>
    have h₅ : found.2.length ≤ _ := length_le_of_parenthesized? hp
    rw [hp] at h₃
    simp only at h₃
    omega

theorem length_lt_of_param? {s rest : List Char} {param : List Char × List Char}
    (h : param? s = some (param, rest)) : rest.length < s.length := by
  simp only [param?, bind, Option.bind_eq_some_iff] at h
  obtain ⟨⟨name, afterName⟩, hname, ⟨type, afterType⟩, htype, h⟩ := h
  simp only [Option.some.injEq, Prod.mk.injEq] at h
  have h₁ := length_lt_of_name? hname
  have h₂ := length_le_of_typed? htype
  simp only at h₂
  rw [h.2] at h₂
  omega

/-! ## Searches -/

/-- A recogniser that takes something away from the text whenever it recognises something. -/
structure Recognizer (α : Type) where
  /-- What is recognised at the front of a text, and the rest. -/
  recognize : List Char → Option (α × List Char)
  length_lt : ∀ {s a rest}, recognize s = some (a, rest) → rest.length < s.length

/-- Everything that is recognised in a text: every position is tried from left to right, and the
search goes on behind what was taken. -/
def occurrences {α : Type} (r : Recognizer α) (s : List Char) : List α :=
  match s with
  | [] => []
  | c :: cs =>
    match _h : r.recognize (c :: cs) with
    | some (a, rest) => a :: occurrences r rest
    | none => occurrences r cs
termination_by s.length
decreasing_by
  · exact r.length_lt _h
  · simp

/-- The fields in the body of a block. -/
def fields (body : List Char) : List Field := occurrences ⟨field?, length_lt_of_field?⟩ body

/-- The parameters in an argument list, with their types. -/
def params (arguments : List Char) : List (List Char × List Char) :=
  occurrences ⟨param?, length_lt_of_param?⟩ arguments

/-! ## Blocks -/

/-- The keywords that begin a block. -/
inductive Keyword where
  | type
  | input
  | enum
  | interface
  deriving DecidableEq

/-- A block as found in a schema. -/
structure Block where
  keyword : Keyword
  name : List Char
  /-- The text between the name and the body. -/
  header : List Char
  /-- The text between the braces. -/
  body : List Char

/-- A keyword at the front of a text, and the rest. -/
def keyword? (s : List Char) : Option (Keyword × List Char) :=
  match dropFront? "type".toList s with
  | some rest => some (.type, rest)
  | none =>
    match dropFront? "input".toList s with
    | some rest => some (.input, rest)
    | none =>
      match dropFront? "enum".toList s with
      | some rest => some (.enum, rest)
      | none => (dropFront? "interface".toList s).map fun rest => (.interface, rest)

/-- True of a character that is no brace. -/
def isPlain (c : Char) : Bool := c != '\x7b' && c != '\x7d'

/-- The text in braces at the front of a text, and the rest. -/
def braced? : List Char → Option (List Char × List Char)
  | '\x7b' :: inner =>
    match inner.dropWhile isPlain with
    | '\x7d' :: rest => some (inner.takeWhile isPlain, rest)
    | _ => none
  | _ => none

/-- A name at the front of a text, after white space, and the rest. -/
def spacedName? (s : List Char) : Option (List Char × List Char) :=
  if s.head?.any isBlank then name? (s.dropWhile isBlank) else none

/-- A block at the front of a text, and the rest. -/
def block? (s : List Char) : Option (Block × List Char) := do
  let (keyword, rest) ← keyword? s
  let (name, rest) ← spacedName? rest
  let (body, after) ← braced? (rest.dropWhile isPlain)
  some (⟨keyword, name, rest.takeWhile isPlain, body⟩, after)

theorem length_le_of_keyword? {s rest : List Char} {keyword : Keyword}
    (h : keyword? s = some (keyword, rest)) : rest.length ≤ s.length := by
  have key : ∀ front after : List Char, dropFront? front s = some after →
      after.length ≤ s.length := by
    intro front after hf
    rw [dropFront?_eq_some_iff.1 hf, List.length_append]
    omega
  unfold keyword? at h
  split at h
  · next hf => simp only [Option.some.injEq, Prod.mk.injEq] at h; exact h.2 ▸ key _ _ hf
  · split at h
    · next hf => simp only [Option.some.injEq, Prod.mk.injEq] at h; exact h.2 ▸ key _ _ hf
    · split at h
      · next hf => simp only [Option.some.injEq, Prod.mk.injEq] at h; exact h.2 ▸ key _ _ hf
      · obtain ⟨after, hf, he⟩ := Option.map_eq_some_iff.1 h
        simp only [Prod.mk.injEq] at he
        exact he.2 ▸ key _ _ hf

theorem length_lt_of_braced? {s body rest : List Char} (h : braced? s = some (body, rest)) :
    rest.length < s.length := by
  unfold braced? at h
  split at h
  · next inner =>
    split at h
    · next after hs =>
      have h₁ := (List.dropWhile_suffix (l := inner) isPlain).length_le
      simp only [Option.some.injEq, Prod.mk.injEq] at h
      rw [hs, List.length_cons, h.2] at h₁
      simp only [List.length_cons]
      omega
    · simp at h
  · simp at h

theorem length_lt_of_spacedName? {s name rest : List Char}
    (h : spacedName? s = some (name, rest)) : rest.length < s.length := by
  unfold spacedName? at h
  split at h
  · exact Nat.lt_of_lt_of_le (length_lt_of_name? h) (List.dropWhile_suffix _).length_le
  · simp at h

theorem length_lt_of_block? {s rest : List Char} {block : Block}
    (h : block? s = some (block, rest)) : rest.length < s.length := by
  simp only [block?, bind, Option.bind_eq_some_iff] at h
  obtain ⟨⟨keyword, afterKeyword⟩, hkeyword, h⟩ := h
  obtain ⟨⟨name, afterName⟩, hname, ⟨body, after⟩, hbody, h⟩ := h
  simp only [Option.some.injEq, Prod.mk.injEq] at h
  have h₁ := length_le_of_keyword? hkeyword
  have h₂ := length_lt_of_spacedName? hname
  have h₃ := (List.dropWhile_suffix (l := afterName) isPlain).length_le
  have h₄ := length_lt_of_braced? hbody
  simp only at h₂ h₄
  rw [h.2] at h₄
  omega

/-- The blocks of a text that follows a word character or does not: inside a word no block
begins, and behind a block a new word begins. -/
def blocksFrom (inWord : Bool) (s : List Char) : List Block :=
  match s with
  | [] => []
  | c :: cs =>
    match _h : if inWord then none else block? (c :: cs) with
    | some (block, rest) => block :: blocksFrom false rest
    | none => blocksFrom (isWord c) cs
termination_by s.length
decreasing_by
  · split at _h
    · simp at _h
    · exact length_lt_of_block? _h
  · simp

/-- The blocks of a text. -/
def blocks (s : List Char) : List Block := blocksFrom false s

/-! ## Laws of the searches -/

/-- A search goes on behind a match. -/
theorem occurrences_of_some {α : Type} {r : Recognizer α} {s rest : List Char} {a : α}
    (h : r.recognize s = some (a, rest)) :
    occurrences r s = a :: occurrences r rest := by
  cases s with
  | nil => exact absurd (r.length_lt h) (Nat.not_lt_zero _)
  | cons c cs =>
    rw [occurrences]
    split
    · next hr => rw [h] at hr; cases hr; rfl
    · next hr => rw [h] at hr; cases hr

/-- A search passes over a character at which nothing begins. -/
theorem occurrences_of_none {α : Type} {r : Recognizer α} {c : Char} {cs : List Char}
    (h : r.recognize (c :: cs) = none) : occurrences r (c :: cs) = occurrences r cs := by
  rw [occurrences]
  split
  · next hr => rw [h] at hr; cases hr
  · rfl

/-- Outside a word a search goes on behind a block. -/
theorem blocksFrom_of_some {s rest : List Char} {block : Block}
    (h : block? s = some (block, rest)) :
    blocksFrom false s = block :: blocksFrom false rest := by
  cases s with
  | nil => exact absurd (length_lt_of_block? h) (Nat.not_lt_zero _)
  | cons c cs =>
    rw [blocksFrom]
    split
    · next hr =>
      rw [if_neg Bool.false_ne_true, h] at hr
      cases hr
      rfl
    · next hr =>
      rw [if_neg Bool.false_ne_true, h] at hr
      cases hr

/-- A search passes over a character inside a word, and over one at which no block begins. -/
theorem blocksFrom_of_none {inWord : Bool} {c : Char} {cs : List Char}
    (h : inWord = true ∨ block? (c :: cs) = none) :
    blocksFrom inWord (c :: cs) = blocksFrom (isWord c) cs := by
  rw [blocksFrom]
  split
  · next hr =>
    rcases h with rfl | h
    · simp at hr
    · rw [h] at hr; simp at hr
  · rfl

end SchemaAccess.Loose
