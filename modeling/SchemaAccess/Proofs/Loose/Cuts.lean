import Mathlib.Algebra.Order.BigOperators.Group.List
import Mathlib.Algebra.Order.Group.Nat
import SchemaAccess.Proofs.Loose.Skips

/-!
# Cleaning any text

Whatever a text looks like, cleaning cuts it into pieces and leaves of each piece what it is taken
for: characters stay, comments vanish, and a string or an argument list leaves one space.

* `Piece`, `Cuts` — the pieces of a text.
* `exists_cuts`, `Cuts.written` — every text is cut, and its pieces in their order are the text.
* `Cuts.cleaned` — what remains of the pieces in their order is the cleaned text.
* `CleansSafely`, `cleansSafely` — what holds of cleaning any text: its skips stay within the text,
  and the cleaned text has no strings and no comments and is not longer.
-/

namespace SchemaAccess.Loose

open Text Layout

/-! ## Pieces -/

/-- What a piece of a text is taken for. -/
inductive Piece where
  | char (c : Char)
  | comment (line : List Char)
  | string (inside : List Char)
  /-- The argument list of a directive with the white space before it. -/
  | arguments (blanks inside : List Char)

/-- What stands in the text, and what remains in the cleaned text. -/
def Piece.text : Stage → Piece → List Char
  | _, .char c => [c]
  | .written, .comment line => '#' :: line
  | .cleaned, .comment _ => []
  | .written, .string inside => '"' :: inside
  | .written, .arguments blanks inside => blanks ++ '(' :: inside
  | .cleaned, .string _ => [' ']
  | .cleaned, .arguments _ _ => [' ']

/-- The pieces of a text. -/
inductive Cuts : List Char → List Piece → Prop
  | nil : Cuts [] []
  | char {c : Char} {rest : List Char} {pieces : List Piece} (plain : isOrdinary c = true)
      (tail : Cuts rest pieces) : Cuts (c :: rest) (.char c :: pieces)
  /-- A comment goes on up to the line feed or the end of the text. -/
  | comment {line rest : List Char} {pieces : List Piece} (onLine : ∀ c ∈ line, c ≠ '\n')
      (stops : Stops (· ≠ '\n') rest) (tail : Cuts rest pieces) :
      Cuts ('#' :: line ++ rest) (.comment line :: pieces)
  | string {inside rest : List Char} {pieces : List Piece} (passed : PassedString inside rest)
      (tail : Cuts rest pieces) : Cuts ('"' :: inside ++ rest) (.string inside :: pieces)
  /-- An at sign with the characters of a name, which may be missing. -/
  | directive {name rest : List Char} {pieces : List Piece}
      (isName : ∀ c ∈ name, isDirectiveChar c = true) (stops : Stops isDirectiveChar rest)
      (noList : NoList rest) (tail : Cuts rest pieces) :
      Cuts ('@' :: name ++ rest) (('@' :: name).map .char ++ pieces)
  | arguments {name blanks inside rest : List Char} {pieces : List Piece}
      (isName : ∀ c ∈ name, isDirectiveChar c = true) (isBlank : ∀ c ∈ blanks, isBlank c = true)
      (passed : PassedGroup 0 inside rest) (tail : Cuts rest pieces) :
      Cuts ('@' :: name ++ (blanks ++ '(' :: (inside ++ rest)))
        (('@' :: name).map .char ++ .arguments blanks inside :: pieces)

theorem char_injective : Function.Injective Piece.char := fun _ _ => Piece.char.inj

/-- Characters are their own pieces. -/
theorem flatMap_text_char (stage : Stage) (s : List Char) :
    (s.map Piece.char).flatMap (Piece.text stage) = s := by
  rw [List.flatMap_map]
  exact List.flatMap_singleton' s

/-! ## Every text is cut -/

/-- Cleaning goes through the text piece by piece. -/
theorem exists_cuts (text : List Char) : ∃ pieces, Cuts text pieces := by
  fun_induction clean text with
  | case1 => exact ⟨[], .nil⟩
  | case2 rest ih =>
    obtain ⟨pieces, hpieces⟩ := ih
    have hline : ∀ c ∈ rest.takeWhile (· ≠ '\n'), c ≠ '\n' := fun c hc => by
      simpa using List.mem_takeWhile_imp hc
    have hcuts := Cuts.comment hline (stops_dropWhile _ rest) hpieces
    rw [List.cons_append, List.takeWhile_append_dropWhile] at hcuts
    exact ⟨_, hcuts⟩
  | case3 rest ih =>
    obtain ⟨pieces, hpieces⟩ := ih
    obtain ⟨inside, hinside, hpassed⟩ := exists_passedString rest
    have hcuts := Cuts.string hpassed hpieces
    rw [List.cons_append, ← hinside] at hcuts
    exact ⟨_, hcuts⟩
  | case4 rest ihList ih =>
    have hname : ∀ c ∈ rest.takeWhile isDirectiveChar, isDirectiveChar c = true := fun c hc =>
      List.mem_takeWhile_imp hc
    cases hafter : afterArguments? (rest.dropWhile isDirectiveChar) with
    | some after =>
      obtain ⟨pieces, hpieces⟩ := ihList after hafter
      obtain ⟨inner, hinner, rfl⟩ := dropWhile_of_afterArguments? hafter
      obtain ⟨inside, hinside, hpassed⟩ := exists_passedGroup 0 inner
      have hblanks : ∀ c ∈ (rest.dropWhile isDirectiveChar).takeWhile isBlank, isBlank c = true :=
        fun c hc => List.mem_takeWhile_imp hc
      have hcuts := Cuts.arguments hname hblanks hpassed hpieces
      rw [← hinside, ← hinner, List.takeWhile_append_dropWhile, List.cons_append,
        List.takeWhile_append_dropWhile] at hcuts
      exact ⟨_, hcuts⟩
    | none =>
      obtain ⟨pieces, hpieces⟩ := ih
      have hcuts := Cuts.directive hname (stops_dropWhile _ _) (noList_of_afterArguments? hafter)
        hpieces
      rw [List.cons_append, List.takeWhile_append_dropWhile] at hcuts
      exact ⟨_, hcuts⟩
  | case5 c rest hhash hquote hat ih =>
    obtain ⟨pieces, hpieces⟩ := ih
    exact ⟨.char c :: pieces, .char (isOrdinary_iff.2 ⟨hhash, hquote, hat⟩) hpieces⟩

theorem notMem_marks_of_isOrdinary {c : Char} (h : isOrdinary c = true) : c ∉ ['"', '#'] := by
  obtain ⟨hhash, hquote, -⟩ := isOrdinary_iff.1 h
  simp only [List.mem_cons, List.not_mem_nil, or_false, not_or]
  exact ⟨hquote, hhash⟩

/-- Neither a string nor a comment begins in an at sign with the characters of a name. -/
theorem notMem_marks_of_at {name : List Char} (hname : ∀ c ∈ name, isDirectiveChar c = true)
    {c : Char} (hc : c ∈ '@' :: name) : c ∉ ['"', '#'] := by
  rcases List.mem_cons.1 hc with rfl | hc
  · decide
  · exact notMem_marks_of_isOrdinary <|
      isOrdinary_of_class (forall_mem_eq_false (by decide)) (hname c hc)

section Laws

variable {text : List Char} {pieces : List Piece}

/-- The pieces in their order are the text. -/
theorem Cuts.written (h : Cuts text pieces) : text = pieces.flatMap (Piece.text .written) := by
  induction h with
  | nil => rfl
  | char plain tail ih => exact congrArg (_ :: ·) ih
  | comment onLine stops tail ih => rw [List.flatMap_cons, ← ih]; rfl
  | string passed tail ih => rw [List.flatMap_cons, ← ih]; rfl
  | directive isName stops noList tail ih => rw [List.flatMap_append, flatMap_text_char, ← ih]
  | arguments isName isBlank passed tail ih =>
    rw [List.flatMap_append, flatMap_text_char, List.flatMap_cons, ← ih, Piece.text,
      List.append_assoc]
    rfl

/-- What remains of the pieces in their order is the cleaned text. -/
theorem Cuts.cleaned (h : Cuts text pieces) :
    clean text = pieces.flatMap (Piece.text .cleaned) := by
  induction h with
  | nil => exact clean_nil
  | char plain tail ih =>
    rw [clean_char plain, ih]
    rfl
  | comment onLine stops tail ih =>
    rw [List.cons_append, clean_hash,
      dropWhile_append_of_stops (fun c hc => by simpa using onLine c hc) stops, ih]
    rfl
  | string passed tail ih =>
    rw [List.cons_append, clean_quote, passed.afterString_append, ih]
    rfl
  | directive isName stops noList tail ih =>
    rw [clean_at isName stops noList.afterArguments?, List.flatMap_append, flatMap_text_char, ih]
  | @arguments name blanks inside rest pieces isName isBlank passed tail ih =>
    have hstops : Stops isDirectiveChar (blanks ++ '(' :: (inside ++ rest)) :=
      stops_append (fun c hc => isDirectiveChar_of_isBlank (isBlank c hc))
        (stops_cons (by decide) _)
    have hlist : afterArguments? (blanks ++ '(' :: (inside ++ rest)) = some rest := by
      rw [afterArguments?_of_blanks isBlank, passed.afterGroup_append]
    rw [clean_at_list isName hstops hlist, List.flatMap_append, flatMap_text_char,
      List.flatMap_cons, ih]
    rfl

/-- What stays as it is begins no string and no comment. -/
theorem Cuts.notMem_marks (h : Cuts text pieces) {c : Char} (hc : .char c ∈ pieces) :
    c ∉ ['"', '#'] := by
  induction h with
  | nil => cases hc
  | char plain tail ih =>
    rcases List.mem_cons.1 hc with hc | hc
    · obtain rfl := Piece.char.inj hc
      exact notMem_marks_of_isOrdinary plain
    · exact ih hc
  | comment onLine stops tail ih => exact ih (List.mem_of_ne_of_mem (by simp) hc)
  | string passed tail ih => exact ih (List.mem_of_ne_of_mem (by simp) hc)
  | directive isName stops noList tail ih =>
    rcases List.mem_append.1 hc with hc | hc
    · exact notMem_marks_of_at isName ((List.mem_map_of_injective char_injective).1 hc)
    · exact ih hc
  | arguments isName isBlank passed tail ih =>
    rcases List.mem_append.1 hc with hc | hc
    · exact notMem_marks_of_at isName ((List.mem_map_of_injective char_injective).1 hc)
    · exact ih (List.mem_of_ne_of_mem (by simp) hc)

end Laws

/-! ## The cleaned text -/

/-- No string and no comment begins in the cleaned text. -/
theorem notMem_clean (text : List Char) : ∀ c ∈ ['"', '#'], c ∉ clean text := by
  intro c hc hmem
  obtain ⟨pieces, hcuts⟩ := exists_cuts text
  rw [hcuts.cleaned] at hmem
  obtain ⟨piece, hpiece, hmem⟩ := List.mem_flatMap.1 hmem
  have hspace : c ≠ ' ' := by
    rintro rfl
    exact absurd hc (by decide)
  cases piece with
  | char d =>
    obtain rfl := List.mem_singleton.1 hmem
    exact hcuts.notMem_marks hpiece hc
  | comment line => cases hmem
  | string inside => exact hspace (List.mem_singleton.1 hmem)
  | arguments blanks inside => exact hspace (List.mem_singleton.1 hmem)

theorem Piece.length_cleaned_le (piece : Piece) :
    (piece.text .cleaned).length ≤ (piece.text .written).length := by
  cases piece <;> simp only [Piece.text, List.length_append, List.length_cons, List.length_nil] <;>
    omega

theorem Piece.written_pos (piece : Piece) : 1 ≤ (piece.text .written).length := by
  cases piece <;> simp only [Piece.text, List.length_append, List.length_cons, List.length_nil] <;>
    omega

/-- The cleaned text is not longer than the text. -/
theorem length_clean_le (text : List Char) : (clean text).length ≤ text.length := by
  obtain ⟨pieces, hcuts⟩ := exists_cuts text
  rw [hcuts.cleaned]
  conv_rhs => rw [hcuts.written]
  rw [List.length_flatMap, List.length_flatMap]
  exact List.sum_le_sum fun piece _ => piece.length_cleaned_le

/-- A text has no more pieces than characters. -/
theorem Cuts.length_le {text : List Char} {pieces : List Piece} (h : Cuts text pieces) :
    pieces.length ≤ text.length := by
  conv_rhs => rw [h.written]
  rw [List.length_flatMap, ← List.length_map fun piece => (piece.text .written).length]
  refine List.length_le_sum_of_one_le _ fun length hlength => ?_
  obtain ⟨piece, -, rfl⟩ := List.mem_map.1 hlength
  exact piece.written_pos

/-! ## Positions -/

section Positions

variable {text : List Char} {i : Nat}

/-- What is left behind a position begins at a later one. -/
theorem exists_later {rest : List Char} (hi : i < text.length) (h : rest <:+ text.drop (i + 1)) :
    ∃ j, i < j ∧ j ≤ text.length ∧ rest = text.drop j := by
  obtain ⟨before, hbefore⟩ := h
  refine ⟨i + 1 + before.length, by omega, ?_, ?_⟩
  · have hlength := congrArg List.length hbefore
    rw [List.length_append, List.length_drop] at hlength
    omega
  · rw [← List.drop_drop, ← hbefore, List.drop_left]

theorem exists_afterString (hi : i < text.length) :
    ∃ j, i < j ∧ j ≤ text.length ∧ afterString (text.drop (i + 1)) = text.drop j := by
  obtain ⟨inside, hinside, -⟩ := exists_passedString (text.drop (i + 1))
  exact exists_later hi ⟨inside, hinside.symm⟩

theorem exists_afterGroup (outer : Nat) (hi : i < text.length) :
    ∃ j, i < j ∧ j ≤ text.length ∧ afterGroup outer (text.drop (i + 1)) = text.drop j := by
  obtain ⟨inside, hinside, -⟩ := exists_passedGroup outer (text.drop (i + 1))
  exact exists_later hi ⟨inside, hinside.symm⟩

end Positions

/-- What holds of cleaning a text, however malformed it is. -/
structure CleansSafely (text : List Char) : Prop where
  /-- Skipping a string ends behind its quote and within the text. -/
  string : ∀ i, text[i]? = some '"' →
    ∃ j, i < j ∧ j ≤ text.length ∧ afterString (text.drop (i + 1)) = text.drop j
  /-- Skipping a group ends behind its parenthesis and within the text. -/
  group : ∀ i, text[i]? = some '(' →
    ∃ j, i < j ∧ j ≤ text.length ∧ afterGroup 0 (text.drop (i + 1)) = text.drop j
  /-- A group may be skipped with a counter, which is never zero where it is counted down. -/
  counter : ∀ i, text[i]? = some '(' →
    (countGroup 0 (text.drop i)).2 = afterGroup 0 (text.drop (i + 1)) ∧
      ∀ depth ∈ (countGroup 0 (text.drop i)).1, 1 ≤ depth
  /-- Cleaning ends after no more pieces than there are characters. -/
  isCut : ∃ pieces, Cuts text pieces ∧ pieces.length ≤ text.length
  /-- The pieces are the text, and what remains of them is the cleaned text. -/
  remains : ∀ pieces, Cuts text pieces →
    text = pieces.flatMap (Piece.text .written) ∧ clean text = pieces.flatMap (Piece.text .cleaned)
  noQuote : '"' ∉ clean text
  noHash : '#' ∉ clean text
  length_le : (clean text).length ≤ text.length

/-- **Cleaning is safe on every text.** -/
theorem cleansSafely (text : List Char) : CleansSafely text where
  string i hi := exists_afterString (List.getElem?_eq_some_iff.1 hi).1
  group i hi := exists_afterGroup 0 (List.getElem?_eq_some_iff.1 hi).1
  counter i hi := by
    obtain ⟨hlength, hopening⟩ := List.getElem?_eq_some_iff.1 hi
    rw [List.drop_eq_getElem_cons hlength, hopening]
    exact countGroup_opening (text.drop (i + 1))
  isCut := by
    obtain ⟨pieces, hcuts⟩ := exists_cuts text
    exact ⟨pieces, hcuts, hcuts.length_le⟩
  remains pieces hcuts := ⟨hcuts.written, hcuts.cleaned⟩
  noQuote := notMem_clean text '"' (by decide)
  noHash := notMem_clean text '#' (by decide)
  length_le := length_clean_le text

end SchemaAccess.Loose
