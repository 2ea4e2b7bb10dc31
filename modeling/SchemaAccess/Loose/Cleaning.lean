import SchemaAccess.Text.Blank
import SchemaAccess.Text.Letters

/-!
# Cleaning a loosely laid out schema

Before a schema is searched for blocks, everything that could be mistaken for one is taken out:
comments vanish, and a string or the argument list of a directive leaves one space.  The names of
directives stay, since they say which types are models and which fields are relationships.

* `afterString` — the text behind a quoted string or a block string.
* `afterGroup` — the text behind the parenthesis that closes an open group.
* `clean` — the cleaned text.

`length_afterString_le` and `length_afterGroup_le` say that a skip never gives back more than there
is; they are what makes `clean` total.
-/

namespace SchemaAccess.Loose

open Text

/-! ## Skipping strings -/

/-- The text behind the three quotes that end a block string; all of it if they are missing. -/
def afterBlock : List Char → List Char
  | '"' :: '"' :: '"' :: rest => rest
  | _ :: rest => afterBlock rest
  | [] => []

/-- The text behind the quote that ends a string.  A backslash takes the next character with it,
and a line feed ends an unclosed string, but is kept. -/
def afterQuoted : List Char → List Char
  | [] => []
  | ['\\'] => []
  | '\\' :: _ :: rest => afterQuoted rest
  | '"' :: rest => rest
  | '\n' :: rest => '\n' :: rest
  | _ :: rest => afterQuoted rest

/-- The text behind a string whose opening quote has just been passed. -/
def afterString : List Char → List Char
  | '"' :: '"' :: rest => afterBlock rest
  | rest => afterQuoted rest

theorem length_afterBlock_le (s : List Char) : (afterBlock s).length ≤ s.length := by
  fun_induction afterBlock s with
  | case1 rest => simp only [List.length_cons]; omega
  | case2 c rest _ ih => simp only [List.length_cons]; omega
  | case3 => exact Nat.le_refl _

theorem length_afterQuoted_le (s : List Char) : (afterQuoted s).length ≤ s.length := by
  fun_induction afterQuoted s with
  | case1 => exact Nat.le_refl _
  | case2 => exact Nat.zero_le _
  | case3 c rest ih => simp only [List.length_cons]; omega
  | case4 rest => simp only [List.length_cons]; omega
  | case5 rest => exact Nat.le_refl _
  | case6 c rest _ _ _ _ ih => simp only [List.length_cons]; omega

/-- Skipping a string takes away no more than there is. -/
theorem length_afterString_le (s : List Char) : (afterString s).length ≤ s.length := by
  unfold afterString
  split
  · next rest =>
    have := length_afterBlock_le rest
    simp only [List.length_cons]
    omega
  · exact length_afterQuoted_le _

/-! ## Skipping groups -/

/-- The text behind the parenthesis that closes the innermost open group, where `outer` more groups
are open around it: all of them are closed.  Parentheses inside strings do not count. -/
def afterGroup (outer : Nat) : List Char → List Char
  | [] => []
  | '"' :: rest => afterGroup outer (afterString rest)
  | '(' :: rest => afterGroup (outer + 1) rest
  | ')' :: rest =>
    match outer with
    | 0 => rest
    | outer + 1 => afterGroup outer rest
  | _ :: rest => afterGroup outer rest
termination_by s => s.length
decreasing_by
  · exact Nat.lt_succ_of_le (length_afterString_le rest)
  all_goals simp

/-- Skipping a group takes away no more than there is. -/
theorem length_afterGroup_le (outer : Nat) (s : List Char) :
    (afterGroup outer s).length ≤ s.length := by
  fun_induction afterGroup outer s with
  | case1 => exact Nat.le_refl _
  | case2 outer rest ih =>
    have := length_afterString_le rest
    simp only [List.length_cons]
    omega
  | case3 outer rest ih => simp only [List.length_cons]; omega
  | case4 rest => simp
  | case5 outer rest ih => simp only [List.length_cons]; omega
  | case6 outer c rest _ _ _ ih => simp only [List.length_cons]; omega

/-! ## Cleaning -/

/-- True of a character in the name of a directive, as far as cleaning is concerned. -/
def isDirectiveChar (c : Char) : Bool := isAlphanumeric c || c == '_'

/-- What remains to be cleaned behind the name of a directive: an argument list, possibly after
white space, is skipped together with that white space. -/
def afterArguments? (s : List Char) : Option (List Char) :=
  match s.dropWhile isBlank with
  | '(' :: rest => some (afterGroup 0 rest)
  | _ => none

theorem length_afterArguments? {s rest : List Char} (h : afterArguments? s = some rest) :
    rest.length ≤ s.length := by
  unfold afterArguments? at h
  split at h
  · next inner hs =>
    have h₁ := (List.dropWhile_suffix (l := s) isBlank).length_le
    have h₂ := length_afterGroup_le 0 inner
    rw [hs, List.length_cons] at h₁
    simp only [Option.some.injEq] at h
    rw [← h]
    omega
  · exact absurd h (by simp)

/-- The text without comments, strings and argument lists of directives. -/
def clean : List Char → List Char
  | [] => []
  | '#' :: rest => clean (rest.dropWhile (· ≠ '\n'))
  | '"' :: rest => ' ' :: clean (afterString rest)
  | '@' :: rest =>
    '@' :: rest.takeWhile isDirectiveChar ++
      match _h : afterArguments? (rest.dropWhile isDirectiveChar) with
      | some rest => ' ' :: clean rest
      | none => clean (rest.dropWhile isDirectiveChar)
  | c :: rest => c :: clean rest
termination_by s => s.length
decreasing_by
  · exact Nat.lt_succ_of_le (List.dropWhile_suffix _).length_le
  · exact Nat.lt_succ_of_le (length_afterString_le rest)
  · exact Nat.lt_succ_of_le
      (Nat.le_trans (length_afterArguments? _h) (List.dropWhile_suffix _).length_le)
  · exact Nat.lt_succ_of_le (List.dropWhile_suffix _).length_le
  · simp

end SchemaAccess.Loose
