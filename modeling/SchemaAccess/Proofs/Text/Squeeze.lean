import SchemaAccess.Proofs.Text.Pieces

/-!
# Replacing white space by single spaces

How much white space stands somewhere in a schema, and which, does not matter.  `squeeze` replaces
every run of white space by one space; the laws say how the longest runs at the front of a text and
its pieces look afterwards.

* `squeeze_cons_of_blank`, `squeeze_append` — computing a squeezed text.
* `squeeze_append_blanks` — further white space before white space changes nothing.
* `takeWhile_squeeze_of_apart`, `dropWhile_squeeze_of_apart` — runs without white space.
* `takeWhile_squeeze`, `dropWhile_squeeze` — runs that go on through white space.
* `piecesWhere_squeeze` — pieces between separators to which white space belongs.
-/

namespace SchemaAccess.Text

/-- The text with every run of white space replaced by one space. -/
def squeeze : List Char → List Char
  | [] => []
  | c :: cs => if isBlank c then ' ' :: (squeeze cs).dropWhile isBlank else c :: squeeze cs

variable {p : Char → Bool} {c : Char}

/-! ## Runs at the front

Squeezing is a recursion that looks at what it has made of the rest.  So the first laws say what it
does to the white space at the front, and the others can leave the definition closed. -/

theorem squeeze_cons_of_not_blank (h : isBlank c = false) (s : List Char) :
    squeeze (c :: s) = c :: squeeze s := by
  rw [squeeze, if_neg (by simp [h])]

/-- Behind the white space at the front, the rest is squeezed. -/
theorem dropWhile_isBlank_squeeze (s : List Char) :
    (squeeze s).dropWhile isBlank = squeeze (s.dropWhile isBlank) := by
  induction s with
  | nil => rfl
  | cons c s ih =>
    cases hc : isBlank c with
    | true =>
      rw [squeeze, if_pos hc, List.dropWhile_cons_of_pos (by decide), dropWhile_dropWhile, ih,
        List.dropWhile_cons_of_pos hc]
    | false =>
      rw [squeeze_cons_of_not_blank hc, List.dropWhile_cons_of_neg (by simp [hc]),
        List.dropWhile_cons_of_neg (by simp [hc]), squeeze_cons_of_not_blank hc]

/-- White space at the front becomes one space, and the rest behind it is squeezed. -/
theorem squeeze_cons_of_blank (h : isBlank c = true) (s : List Char) :
    squeeze (c :: s) = ' ' :: squeeze (s.dropWhile isBlank) := by
  rw [squeeze, if_pos h, dropWhile_isBlank_squeeze]

/-- A run of a class without white space stays as it is. -/
theorem takeWhile_squeeze_of_apart (h : ∀ c, isBlank c = true → p c = false) (s : List Char) :
    (squeeze s).takeWhile p = s.takeWhile p := by
  induction s with
  | nil => rfl
  | cons c s ih =>
    cases hc : isBlank c with
    | true =>
      rw [squeeze_cons_of_blank hc, List.takeWhile_cons, List.takeWhile_cons, h c hc,
        h ' ' (by decide)]
      rfl
    | false => rw [squeeze_cons_of_not_blank hc, List.takeWhile_cons, List.takeWhile_cons, ih]

theorem dropWhile_squeeze_of_apart (h : ∀ c, isBlank c = true → p c = false) (s : List Char) :
    (squeeze s).dropWhile p = squeeze (s.dropWhile p) := by
  induction s with
  | nil => rfl
  | cons c s ih =>
    cases hc : isBlank c with
    | true =>
      rw [squeeze_cons_of_blank hc, List.dropWhile_cons_of_neg (by simp [h ' ' (by decide)]),
        List.dropWhile_cons_of_neg (by simp [h c hc]), squeeze_cons_of_blank hc]
    | false =>
      rw [squeeze_cons_of_not_blank hc, List.dropWhile_cons, List.dropWhile_cons, ih]
      split
      · rfl
      · rw [squeeze_cons_of_not_blank hc]

/-! ## Runs through white space

A run that goes on through white space is squeezed itself.  The white space that is lost stands next
to white space of the same run, so nothing leaves the run and nothing comes into it. -/

/-- A longer run begins with the white space at the front. -/
theorem dropWhile_dropWhile_isBlank (h : ∀ c, isBlank c = true → p c = true) (s : List Char) :
    (s.dropWhile isBlank).dropWhile p = s.dropWhile p := by
  induction s with
  | nil => rfl
  | cons c s ih =>
    cases hc : isBlank c with
    | true => rw [List.dropWhile_cons_of_pos hc, ih, List.dropWhile_cons_of_pos (h c hc)]
    | false => rw [List.dropWhile_cons_of_neg (by simp [hc])]

/-- Without the white space at its front, a run is what is left of it. -/
theorem takeWhile_dropWhile_isBlank (h : ∀ c, isBlank c = true → p c = true) (s : List Char) :
    (s.dropWhile isBlank).takeWhile p = (s.takeWhile p).dropWhile isBlank := by
  induction s with
  | nil => rfl
  | cons c s ih =>
    cases hc : isBlank c with
    | true =>
      rw [List.dropWhile_cons_of_pos hc, ih, List.takeWhile_cons_of_pos (h c hc),
        List.dropWhile_cons_of_pos hc]
    | false =>
      rw [List.dropWhile_cons_of_neg (by simp [hc]), List.takeWhile_cons]
      split
      · rw [List.dropWhile_cons_of_neg (by simp [hc])]
      · rfl

theorem dropWhile_squeeze (h : ∀ c, isBlank c = true → p c = true) (s : List Char) :
    (squeeze s).dropWhile p = squeeze (s.dropWhile p) := by
  induction s with
  | nil => rfl
  | cons c s ih =>
    cases hc : isBlank c with
    | true =>
      rw [squeeze, if_pos hc, List.dropWhile_cons_of_pos (h ' ' (by decide)),
        dropWhile_dropWhile_isBlank h, ih, List.dropWhile_cons_of_pos (h c hc)]
    | false =>
      rw [squeeze_cons_of_not_blank hc, List.dropWhile_cons, List.dropWhile_cons, ih]
      split
      · rfl
      · rw [squeeze_cons_of_not_blank hc]

/-- A run through white space is squeezed. -/
theorem takeWhile_squeeze (h : ∀ c, isBlank c = true → p c = true) (s : List Char) :
    (squeeze s).takeWhile p = squeeze (s.takeWhile p) := by
  induction s with
  | nil => rfl
  | cons c s ih =>
    cases hc : isBlank c with
    | true =>
      rw [squeeze, if_pos hc, List.takeWhile_cons_of_pos (h ' ' (by decide)),
        takeWhile_dropWhile_isBlank h, ih, List.takeWhile_cons_of_pos (h c hc), squeeze, if_pos hc]
    | false =>
      rw [squeeze_cons_of_not_blank hc, List.takeWhile_cons, List.takeWhile_cons, ih]
      split
      · rw [squeeze_cons_of_not_blank hc]
      · rfl

/-! ## Texts put together

White space at the end of one text and at the beginning of the next are one run when the texts are
joined.  Where that cannot happen each text is squeezed on its own, and in general only what the two
are squeezed to matters. -/

/-- A squeezed text begins with white space only if the text does. -/
theorem stops_squeeze {s : List Char} (h : Stops isBlank s) : Stops isBlank (squeeze s) := by
  cases s with
  | nil => exact h
  | cons c s =>
    have hc := h c rfl
    rw [squeeze_cons_of_not_blank hc]
    exact stops_cons hc _

/-- Texts are squeezed one by one where the second one does not begin with white space. -/
theorem squeeze_append (s : List Char) {rest : List Char} (h : Stops isBlank rest) :
    squeeze (s ++ rest) = squeeze s ++ squeeze rest := by
  induction s with
  | nil => rfl
  | cons c s ih =>
    rw [List.cons_append, squeeze, squeeze, ih]
    split
    · rw [List.dropWhile_append, List.cons_append]
      split
      · next he =>
        rw [List.isEmpty_iff.1 he]
        exact congrArg _ (dropWhile_append_of_stops (s := []) (by simp) (stops_squeeze h))
      · rfl
    · rfl

theorem squeeze_append_of_forall {s : List Char} (h : ∀ c ∈ s, isBlank c = false)
    (rest : List Char) : squeeze (s ++ rest) = s ++ squeeze rest := by
  induction s with
  | nil => rfl
  | cons c s ih =>
    rw [List.cons_append, squeeze_cons_of_not_blank (h c List.mem_cons_self),
      ih fun d hd => h d (List.mem_cons_of_mem c hd), List.cons_append]

/-- The text behind matters only up to its white space. -/
theorem squeeze_append_congr (s : List Char) {t u : List Char} (h : squeeze t = squeeze u) :
    squeeze (s ++ t) = squeeze (s ++ u) := by
  induction s with
  | nil => exact h
  | cons c s ih => rw [List.cons_append, List.cons_append, squeeze, squeeze, ih]

/-- A text in front may be squeezed before the whole is. -/
theorem squeeze_squeeze_append (s t : List Char) : squeeze (squeeze s ++ t) = squeeze (s ++ t) := by
  induction s with
  | nil => rfl
  | cons c s ih =>
    have hdrop : ∀ u : List Char, (u.dropWhile isBlank ++ t).dropWhile isBlank =
        (u ++ t).dropWhile isBlank := fun u => by
      rw [List.dropWhile_append, List.dropWhile_append, dropWhile_dropWhile]
    cases hc : isBlank c with
    | true =>
      rw [squeeze, if_pos hc, List.cons_append, List.cons_append, squeeze_cons_of_blank (by decide),
        squeeze_cons_of_blank hc, hdrop, ← dropWhile_isBlank_squeeze, ih,
        dropWhile_isBlank_squeeze]
    | false =>
      rw [squeeze_cons_of_not_blank hc, List.cons_append, List.cons_append,
        squeeze_cons_of_not_blank hc, squeeze_cons_of_not_blank hc, ih]

/-- The text in front matters only up to its white space, by `squeeze_squeeze_append`. -/
theorem squeeze_append_congr_left {s u : List Char} (h : squeeze s = squeeze u) (t : List Char) :
    squeeze (s ++ t) = squeeze (u ++ t) := by
  rw [← squeeze_squeeze_append, h, squeeze_squeeze_append]

/-- Further white space before white space changes nothing. -/
theorem squeeze_append_blanks {blank rest : List Char} (hb : ∀ c ∈ blank, isBlank c = true)
    (hc : isBlank c = true) (s : List Char) :
    squeeze (s ++ (blank ++ c :: rest)) = squeeze (s ++ c :: rest) := by
  refine squeeze_append_congr s ?_
  cases blank with
  | nil => rfl
  | cons d ds =>
    rw [List.cons_append, squeeze_cons_of_blank (hb d List.mem_cons_self),
      squeeze_cons_of_blank hc,
      List.dropWhile_append_of_pos fun e he => hb e (List.mem_cons_of_mem d he),
      List.dropWhile_cons_of_pos hc]

/-- Further white space behind white space changes nothing. -/
theorem squeeze_cons_blanks {blank : List Char} (hb : ∀ c ∈ blank, isBlank c = true)
    (hc : isBlank c = true) (rest : List Char) :
    squeeze (c :: (blank ++ rest)) = squeeze (c :: rest) := by
  rw [squeeze_cons_of_blank hc, squeeze_cons_of_blank hc, List.dropWhile_append_of_pos hb]

/-! ## Pieces

Words, values and directives are told by the pieces between separators.  If white space is a
separator, squeezing takes separators away but leaves at least one between any two pieces. -/

/-- White space at the front does not belong to a piece. -/
theorem piecesWhere_dropWhile (h : ∀ c, isBlank c = true → p c = true) (s : List Char) :
    piecesWhere p (s.dropWhile isBlank) = piecesWhere p s := by
  conv_rhs => rw [← List.takeWhile_append_dropWhile (p := isBlank) (l := s)]
  exact (piecesWhere_separators (fun c hc => h c (List.mem_takeWhile_imp hc)) _).symm

/-- The pieces of a text stay, and so do those of a text that ends with a squeezed one. -/
theorem piecesWhere_append_squeeze (h : ∀ c, isBlank c = true → p c = true)
    (word s : List Char) : piecesWhere p (word ++ squeeze s) = piecesWhere p (word ++ s) := by
  induction s generalizing word with
  | nil => rfl
  | cons c s ih =>
    cases hc : isBlank c with
    | true =>
      rw [squeeze, if_pos hc, piecesWhere_append_cons (h ' ' (by decide)),
        piecesWhere_append_cons (h c hc), piecesWhere_dropWhile h]
      exact congrArg _ (ih [])
    | false =>
      have := ih (word ++ [c])
      rw [List.append_assoc, List.append_assoc] at this
      rw [squeeze_cons_of_not_blank hc]
      exact this

/-- **The pieces of a squeezed text are those of the text**, if white space belongs to the
separators. -/
theorem piecesWhere_squeeze (h : ∀ c, isBlank c = true → p c = true) (s : List Char) :
    piecesWhere p (squeeze s) = piecesWhere p s :=
  piecesWhere_append_squeeze h [] s

theorem words_squeeze (s : List Char) : words (squeeze s) = words s :=
  piecesWhere_squeeze (fun _ h => h) s

end SchemaAccess.Text
