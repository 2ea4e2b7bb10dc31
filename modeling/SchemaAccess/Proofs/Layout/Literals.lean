import SchemaAccess.Document.Token
import SchemaAccess.Proofs.Layout.Cleaning

/-!
# The strings of the grammar

In a block string three quotes behind a backslash stand for three quotes, and do not end it.  The
document scanner reads it like that.  Cleaning knows escapes in strings only, so it ends a block
string at the first three quotes, escaped or not.  It skips a string literal of the grammar exactly
if the literal is no block string with escaped quotes in it.

* `BlockText` — what may stand between the quotes of a block string.
* `StringLiteral` — the strings and block strings of the grammar.
* `blockText?_eq_some_iff` — the document scanner reads exactly these block strings.
* `afterString_eq_iff` — which of them are skipped.
* `exists_literal` — those that are skipped are the literals of laid out schemas.
-/

namespace SchemaAccess.Layout

open Text Loose

/-! ## Literals -/

def quotes : List Char := ['"', '"', '"']

def escapedQuotes : List Char := '\\' :: quotes

/-- What may stand between the quotes of a block string: escaped quotes, and characters at which
neither quotes nor escaped quotes begin, those at the end included. -/
inductive BlockText : List Char → Prop
  | nil : BlockText []
  | escape {rest : List Char} (tail : BlockText rest) : BlockText (escapedQuotes ++ rest)
  | char {c : Char} {rest : List Char} (noEnd : ¬ quotes <+: c :: (rest ++ quotes))
      (noEscape : ¬ escapedQuotes <+: c :: (rest ++ quotes)) (tail : BlockText rest) :
      BlockText (c :: rest)

/-- A string or a block string, as the grammar has it. -/
inductive StringLiteral where
  | quoted (inside : List Char) (isQuoted : Quoted inside)
  | block (inside : List Char) (isBlockText : BlockText inside)

namespace StringLiteral

/-- What follows the opening quote, up to the closing one. -/
def afterOpening : StringLiteral → List Char
  | quoted inside _ => inside ++ ['"']
  | block inside _ => '"' :: '"' :: inside ++ quotes

/-- There are escaped quotes in the block string. -/
def IsEscaped : StringLiteral → Prop
  | quoted _ _ => False
  | block inside _ => escapedQuotes <:+: inside

def isEmptyString : StringLiteral → Bool
  | quoted inside _ => inside.isEmpty
  | block _ _ => false

/-- Behind the empty string no quote may follow, as it would begin a block string. -/
def Fits (l : StringLiteral) (rest : List Char) : Prop :=
  l.isEmptyString = true → rest.head? ≠ some '"'

end StringLiteral

/-! ## Block strings as tokens -/

/-- A mark that does not begin a text of its length or more begins no longer text either. -/
theorem not_prefix_append {mark s : List Char} (hlength : mark.length ≤ s.length)
    (h : ¬ mark <+: s) (rest : List Char) : ¬ mark <+: s ++ rest := fun hprefix =>
  h (List.prefix_of_prefix_length_le hprefix (List.prefix_append s rest) hlength)

theorem blockText?_char {c : Char} {s : List Char} (noEnd : ¬ quotes <+: c :: s)
    (noEscape : ¬ escapedQuotes <+: c :: s) :
    Document.blockText? (c :: s) =
      (Document.blockText? s).map fun text => (c :: text.1, text.2) := by
  rw [Document.blockText?]
  · rintro rest rfl rfl
    exact noEscape (List.prefix_append escapedQuotes rest)
  · rintro rest rfl rfl
    exact noEnd (List.prefix_append quotes rest)

theorem blockText?_append {inside : List Char} (h : BlockText inside) (rest : List Char) :
    Document.blockText? (inside ++ (quotes ++ rest)) = some (inside, rest) := by
  induction h with
  | nil => rfl
  | @escape more tail ih =>
    rw [List.append_assoc, escapedQuotes, quotes]
    simp only [List.cons_append, List.nil_append]
    rw [Document.blockText?]
    simp only [quotes, List.cons_append, List.nil_append] at ih
    rw [ih]
    rfl
  | @char c more noEnd noEscape tail ih =>
    have hlength : escapedQuotes.length ≤ (c :: (more ++ quotes)).length := by
      simp [escapedQuotes, quotes]
    have hend := not_prefix_append (by simp [quotes]) noEnd rest
    have hescape := not_prefix_append hlength noEscape rest
    rw [List.cons_append, List.append_assoc] at hend hescape
    rw [List.cons_append, blockText?_char hend hescape, ih]
    rfl

theorem blockText_of_blockText? {s inside rest : List Char}
    (h : Document.blockText? s = some (inside, rest)) : BlockText inside := by
  fun_induction Document.blockText? s generalizing inside rest with
  | case1 more ih =>
    obtain ⟨⟨inner, last⟩, hinner, htext⟩ := Option.map_eq_some_iff.1 h
    cases htext
    exact .escape (ih hinner)
  | case2 more =>
    cases h
    exact .nil
  | case3 c more hescape hend ih =>
    obtain ⟨⟨inner, last⟩, hinner, htext⟩ := Option.map_eq_some_iff.1 h
    cases htext
    have hmore : (inner ++ quotes) ++ last = more := by
      rw [← Document.append_of_blockText? _ _ _ hinner]
      simp [quotes]
    refine .char ?_ ?_ (ih hinner)
    · rintro ⟨after, hafter⟩
      obtain ⟨hc, htail⟩ := List.cons.inj hafter
      exact hend (after ++ last) hc.symm (by rw [← hmore, ← htail]; rfl)
    · rintro ⟨after, hafter⟩
      obtain ⟨hc, htail⟩ := List.cons.inj hafter
      exact hescape (after ++ last) hc.symm (by rw [← hmore, ← htail]; rfl)
  | case4 => cases h

/-- The block strings of the grammar are those that the document scanner reads as one token. -/
theorem blockText?_eq_some_iff {s inside rest : List Char} :
    Document.blockText? s = some (inside, rest) ↔
      BlockText inside ∧ s = inside ++ (quotes ++ rest) := by
  constructor
  · intro h
    exact ⟨blockText_of_blockText? h, (Document.append_of_blockText? _ _ _ h).symm⟩
  · rintro ⟨hinside, rfl⟩
    exact blockText?_append hinside rest

/-! ## Block strings without escaped quotes -/

/-- Without an escape, the quotes at the end are the first three in a row. -/
theorem BlockText.isOpen {inside : List Char} (h : BlockText inside)
    (hplain : ¬ escapedQuotes <:+: inside) : ¬ quotes <:+: inside ++ ['"', '"'] := by
  induction h with
  | nil => exact fun hinfix => absurd hinfix.length_le (by decide)
  | @escape rest tail ih => exact absurd (List.infix_append [] escapedQuotes rest) hplain
  | @char c rest noEnd noEscape tail ih =>
    rw [List.cons_append, List.infix_cons_iff, not_or]
    refine ⟨fun hprefix => noEnd ?_, ih fun hinfix => hplain (List.infix_cons hinfix)⟩
    refine hprefix.trans ⟨['"'], ?_⟩
    simp [quotes]

/-- A literal without escaped quotes is one of the literals of laid out schemas. -/
theorem StringLiteral.exists_literal {l : StringLiteral} (h : ¬ l.IsEscaped) :
    ∃ k : Literal, k.afterOpening = l.afterOpening ∧ k.isEmptyString = l.isEmptyString := by
  cases l with
  | quoted inside isQuoted => exact ⟨.quoted inside isQuoted, rfl, rfl⟩
  | block inside isBlockText => exact ⟨.block inside (isBlockText.isOpen h), rfl, rfl⟩

/-! ## Block strings with escaped quotes -/

/-- A block string ends at the latest at the first quotes that are seen in it. -/
theorem length_le_afterBlock (inside rest : List Char) :
    rest.length ≤ (afterBlock (inside ++ (quotes ++ rest))).length := by
  induction inside with
  | nil => exact Nat.le_refl _
  | cons c inside ih =>
    by_cases hquotes : quotes <+: c :: (inside ++ (quotes ++ rest))
    · obtain ⟨after, hafter⟩ := hquotes
      have hlength := congrArg List.length hafter
      rw [List.cons_append, ← hafter]
      simp only [quotes, List.length_append, List.length_cons, List.length_nil] at hlength
      have hend : afterBlock (quotes ++ after) = after := by
        rw [quotes, List.cons_append, List.cons_append, List.cons_append, List.nil_append,
          afterBlock]
      rw [hend]
      omega
    · rw [List.cons_append, afterBlock_cons hquotes]
      exact ih

/-- Skipping a literal of the grammar ends behind it if and only if it has no escaped quotes. -/
theorem StringLiteral.afterString_eq_iff (l : StringLiteral) {rest : List Char} (h : l.Fits rest) :
    afterString (l.afterOpening ++ rest) = rest ↔ ¬ l.IsEscaped := by
  constructor
  · intro hskip hescaped
    cases l with
    | quoted inside isQuoted => exact hescaped
    | block inside isBlockText =>
      obtain ⟨front, back, rfl⟩ := hescaped
      have htext : (block _ isBlockText).afterOpening ++ rest =
          '"' :: '"' :: ((front ++ ['\\']) ++ (quotes ++ (back ++ (quotes ++ rest)))) := by
        simp [afterOpening, escapedQuotes]
      rw [htext, afterString] at hskip
      have hlength := length_le_afterBlock (front ++ ['\\']) (back ++ (quotes ++ rest))
      rw [hskip] at hlength
      simp only [quotes, List.length_append, List.length_cons, List.length_nil] at hlength
      omega
  · intro hplain
    obtain ⟨k, hafter, hempty⟩ := exists_literal hplain
    rw [← hafter]
    exact afterString_literal k (by rwa [hempty])

end SchemaAccess.Layout
