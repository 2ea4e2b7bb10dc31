/-!
# Blank characters, trimming and words

Schemas, type references and hook bindings are compared with the white space around them removed.
White space is Unicode's `White_Space` property, which is larger than the ASCII class of
`Char.isWhitespace`: it holds the no-break space, the line separators and the ideographic space.

* `isBlank` — the class, as the property's ranges.
* `trim`, `trimEndWhere`, `trimWhere` — removing a class of characters from the ends of a text.
* `piecesWhere` and `words` — the maximal runs of characters outside a class.

The laws at the end say that trimming is done once: `dropWhile_trimWhere`, `trim_trim`.
-/

namespace SchemaAccess.Text

/-! ## The class -/

/-- The ranges of code points with Unicode's `White_Space` property. -/
def blankRanges : List (Nat × Nat) :=
  [(0x09, 0x0D), (0x20, 0x20), (0x85, 0x85), (0xA0, 0xA0), (0x1680, 0x1680), (0x2000, 0x200A),
    (0x2028, 0x2029), (0x202F, 0x202F), (0x205F, 0x205F), (0x3000, 0x3000)]

/-- True of a code point in one of the ranges. -/
def inRanges (ranges : List (Nat × Nat)) (n : Nat) : Bool :=
  ranges.any fun range => range.1 ≤ n && n ≤ range.2

/-- True of a character with the `White_Space` property. -/
def isBlank (c : Char) : Bool := inRanges blankRanges c.toNat

/-! ## Trimming -/

/-- Removes the characters of class `p` from the end of a text. -/
def trimEndWhere (p : Char → Bool) (s : List Char) : List Char :=
  (s.reverse.dropWhile p).reverse

/-- Removes the characters of class `p` from both ends of a text. -/
def trimWhere (p : Char → Bool) (s : List Char) : List Char :=
  trimEndWhere p (s.dropWhile p)

/-- Removes white space from both ends of a text. -/
def trim (s : List Char) : List Char := trimWhere isBlank s

/-! ## Words -/

/-- The runs of a text between separators of class `p`, empty runs included. -/
def splitWhere (p : Char → Bool) : List Char → List (List Char)
  | [] => [[]]
  | c :: cs =>
    match splitWhere p cs with
    | [] => [[c]]
    | run :: runs => if p c then [] :: run :: runs else (c :: run) :: runs

/-- The non-empty runs of a text between separators of class `p`. -/
def piecesWhere (p : Char → Bool) (s : List Char) : List (List Char) :=
  (splitWhere p s).filter fun piece => !piece.isEmpty

/-- The words of a text: its runs without white space. -/
def words (s : List Char) : List (List Char) := piecesWhere isBlank s

/-! ## Laws -/

theorem splitWhere_ne_nil (p : Char → Bool) : ∀ s : List Char, splitWhere p s ≠ []
  | [] => by simp [splitWhere]
  | c :: cs => by
      have := splitWhere_ne_nil p cs
      cases h : splitWhere p cs with
      | nil => exact absurd h this
      | cons run runs => by_cases hp : p c <;> simp [splitWhere, h, hp]

theorem trimEndWhere_append_singleton (p : Char → Bool) (s : List Char) (c : Char) :
    trimEndWhere p (s ++ [c]) = if p c then trimEndWhere p s else s ++ [c] := by
  by_cases h : p c <;> simp [trimEndWhere, h]

/-- Trimming the end leaves a text that does not end in the class. -/
theorem trimEndWhere_eq_self {p : Char → Bool} {s : List Char}
    (h : ∀ c, s.getLast? = some c → p c = false) : trimEndWhere p s = s := by
  rcases List.eq_nil_or_concat s with rfl | ⟨init, last, rfl⟩
  · rfl
  · rw [List.concat_eq_append] at h ⊢
    rw [trimEndWhere_append_singleton, if_neg]
    simpa using h last (by simp)

theorem getLast?_trimEndWhere {p : Char → Bool} {s : List Char} {c : Char}
    (h : (trimEndWhere p s).getLast? = some c) : p c = false := by
  simp only [trimEndWhere, List.getLast?_reverse] at h
  have := List.head?_dropWhile_not p s.reverse
  rw [h] at this
  simpa using this

theorem trimEndWhere_trimEndWhere (p : Char → Bool) (s : List Char) :
    trimEndWhere p (trimEndWhere p s) = trimEndWhere p s :=
  trimEndWhere_eq_self fun _ h => getLast?_trimEndWhere h

/-- A trimmed end is a beginning of the text. -/
theorem trimEndWhere_isPrefix (p : Char → Bool) (s : List Char) : trimEndWhere p s <+: s := by
  rw [← List.reverse_suffix, trimEndWhere, List.reverse_reverse]
  exact List.dropWhile_suffix p

/-- A trimmed text does not begin in the class. -/
theorem dropWhile_trimWhere (p : Char → Bool) (s : List Char) :
    (trimWhere p s).dropWhile p = trimWhere p s := by
  have hp : trimWhere p s <+: s.dropWhile p := trimEndWhere_isPrefix p _
  cases ht : trimWhere p s with
  | nil => rfl
  | cons c cs =>
    rw [ht] at hp
    obtain ⟨rest, hrest⟩ := hp
    have hc := List.head?_dropWhile_not p s
    rw [← hrest] at hc
    simp only [List.cons_append, List.head?_cons] at hc
    simp_all

/-- Trimming a trimmed text changes nothing. -/
theorem trimWhere_trimWhere (p : Char → Bool) (s : List Char) :
    trimWhere p (trimWhere p s) = trimWhere p s := by
  rw [trimWhere, dropWhile_trimWhere, trimWhere, trimEndWhere_trimEndWhere]

theorem trim_trim (s : List Char) : trim (trim s) = trim s := trimWhere_trimWhere isBlank s

end SchemaAccess.Text
