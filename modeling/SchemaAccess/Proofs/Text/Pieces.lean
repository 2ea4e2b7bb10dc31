import SchemaAccess.Proofs.Text.Classes

/-!
# Splitting texts piece by piece

The pieces of a text are its runs without separators.  These laws compute them from the front, so a
text that is put together from words and separators is taken apart again word by word.

* `piecesWhere_append_cons` — a separator splits a text in two.
* `piecesWhere_separator`, `piecesWhere_word` — a separator or a word at the front.
* `forall_mem_of_mem_piecesWhere` — a piece has only characters of the text.
* `mem_piecesWhere`, `exists_of_mem_piecesWhere` — where the pieces stand.
-/

namespace SchemaAccess.Text

variable {p : Char → Bool} {c : Char}

/-- A separator at the front splits off an empty run. -/
theorem splitWhere_cons_of_pos (h : p c = true) (s : List Char) :
    splitWhere p (c :: s) = [] :: splitWhere p s := by
  rw [splitWhere]
  cases hs : splitWhere p s with
  | nil => exact absurd hs (splitWhere_ne_nil p s)
  | cons run runs => simp only [h, if_true]

theorem splitWhere_cons_of_neg (h : p c = false) {s run : List Char} {runs : List (List Char)}
    (hs : splitWhere p s = run :: runs) : splitWhere p (c :: s) = (c :: run) :: runs := by
  rw [splitWhere, hs]
  simp only [h, Bool.false_eq_true, if_false]

/-- A separator splits a text in two, and the runs of the whole are those of the two parts. -/
theorem splitWhere_append_cons (h : p c = true) (s rest : List Char) :
    splitWhere p (s ++ c :: rest) = splitWhere p s ++ splitWhere p rest := by
  induction s with
  | nil => rw [List.nil_append, splitWhere_cons_of_pos h]; rfl
  | cons d s ih =>
    rw [List.cons_append]
    cases hd : p d with
    | true => rw [splitWhere_cons_of_pos hd, splitWhere_cons_of_pos hd, ih, List.cons_append]
    | false =>
      cases hs : splitWhere p s with
      | nil => exact absurd hs (splitWhere_ne_nil p s)
      | cons run runs =>
        rw [hs, List.cons_append] at ih
        rw [splitWhere_cons_of_neg hd ih, splitWhere_cons_of_neg hd hs, List.cons_append]

/-- A text without separators is one run. -/
theorem splitWhere_of_forall {s : List Char} (h : ∀ c ∈ s, p c = false) :
    splitWhere p s = [s] := by
  induction s with
  | nil => rfl
  | cons d s ih =>
    rw [splitWhere_cons_of_neg (h d List.mem_cons_self)
      (ih fun c hc => h c (List.mem_cons_of_mem d hc))]

/-- The same for pieces, which are the runs that are not empty. -/
theorem piecesWhere_append_cons (h : p c = true) (s rest : List Char) :
    piecesWhere p (s ++ c :: rest) = piecesWhere p s ++ piecesWhere p rest := by
  rw [piecesWhere, splitWhere_append_cons h, List.filter_append]
  rfl

theorem piecesWhere_separator (h : p c = true) (rest : List Char) :
    piecesWhere p (c :: rest) = piecesWhere p rest := piecesWhere_append_cons h [] rest

/-- Separators at the front are no part of a piece. -/
theorem piecesWhere_separators {s : List Char} (h : ∀ c ∈ s, p c = true) (rest : List Char) :
    piecesWhere p (s ++ rest) = piecesWhere p rest := by
  induction s with
  | nil => rfl
  | cons d s ih =>
    rw [List.cons_append, piecesWhere_separator (h d List.mem_cons_self),
      ih fun c hc => h c (List.mem_cons_of_mem d hc)]

/-- **A word at the front is the first piece**, if a separator follows or nothing.  With
`piecesWhere_separators` this takes any text apart that is put together from words and
separators. -/
theorem piecesWhere_word {word rest : List Char} (hw : word ≠ []) (h : ∀ c ∈ word, p c = false)
    (hr : Stops (fun c => !p c) rest) :
    piecesWhere p (word ++ rest) = word :: piecesWhere p rest := by
  have hword : piecesWhere p word = [word] := by
    rw [piecesWhere, splitWhere_of_forall h, List.filter_cons_of_pos (by simpa using hw),
      List.filter_nil]
  cases rest with
  | nil => rw [List.append_nil, hword]; rfl
  | cons d rest =>
    have hd : p d = true := by simpa using hr d rfl
    rw [piecesWhere_append_cons hd, hword, piecesWhere_separator hd]
    rfl

theorem forall_mem_of_mem_splitWhere {s piece : List Char} (h : piece ∈ splitWhere p s) :
    ∀ c ∈ piece, c ∈ s := by
  induction s generalizing piece with
  | nil =>
    rw [splitWhere, List.mem_singleton] at h
    simp [h]
  | cons d s ih =>
    intro c hc
    cases hd : p d with
    | true =>
      rw [splitWhere_cons_of_pos hd, List.mem_cons] at h
      rcases h with rfl | h
      · simp at hc
      · exact List.mem_cons_of_mem d (ih h c hc)
    | false =>
      cases hs : splitWhere p s with
      | nil => exact absurd hs (splitWhere_ne_nil p s)
      | cons run runs =>
        rw [splitWhere_cons_of_neg hd hs, List.mem_cons] at h
        rcases h with rfl | h
        · rcases List.mem_cons.1 hc with rfl | hc
          · exact List.mem_cons_self
          · exact List.mem_cons_of_mem d (ih (hs ▸ List.mem_cons_self) c hc)
        · exact List.mem_cons_of_mem d (ih (hs ▸ List.mem_cons_of_mem run h) c hc)

/-- A piece has only characters of the text. -/
theorem forall_mem_of_mem_piecesWhere {s piece : List Char} (h : piece ∈ piecesWhere p s) :
    ∀ c ∈ piece, c ∈ s :=
  forall_mem_of_mem_splitWhere (List.mem_filter.1 h).1

theorem takeWhile_ne_nil (h : p c = false) (s : List Char) :
    (c :: s).takeWhile (fun d => !p d) ≠ [] := by
  rw [List.takeWhile_cons_of_pos (by simp [h])]
  exact List.cons_ne_nil _ _

theorem eq_false_of_mem_takeWhile {s : List Char} :
    ∀ d ∈ s.takeWhile (fun d => !p d), p d = false := by
  intro d hd
  simpa using List.mem_takeWhile_imp hd

/-- The first piece of a text that begins with one goes up to the first separator. -/
theorem piecesWhere_cons_of_neg (h : p c = false) (s : List Char) :
    piecesWhere p (c :: s) = (c :: s).takeWhile (fun d => !p d) ::
      piecesWhere p ((c :: s).dropWhile fun d => !p d) := by
  conv_lhs => rw [← List.takeWhile_append_dropWhile (p := fun d => !p d) (l := c :: s)]
  exact piecesWhere_word (takeWhile_ne_nil h s) eq_false_of_mem_takeWhile (stops_dropWhile _ _)

/-- What stands between separators, or at the ends of the text, is a piece. -/
theorem mem_piecesWhere {before word behind : List Char} (hw : word ≠ [])
    (h : ∀ c ∈ word, p c = false) (hb : ∀ c, before.getLast? = some c → p c = true)
    (hr : Stops (fun c => !p c) behind) : word ∈ piecesWhere p (before ++ (word ++ behind)) := by
  rcases List.eq_nil_or_concat before with rfl | ⟨init, c, rfl⟩
  · rw [List.nil_append, piecesWhere_word hw h hr]
    exact List.mem_cons_self
  · rw [List.concat_eq_append, List.append_assoc, List.singleton_append,
      piecesWhere_append_cons (hb c (by simp)), piecesWhere_word hw h hr]
    exact List.mem_append_right _ List.mem_cons_self

/-- **The pieces stand between separators, or at the ends of the text.**  By induction on the text,
piece by piece; with `mem_piecesWhere` this says exactly where a word is a piece. -/
theorem exists_of_mem_piecesWhere {s word : List Char} (h : word ∈ piecesWhere p s) :
    word ≠ [] ∧ (∀ c ∈ word, p c = false) ∧ ∃ before behind, s = before ++ (word ++ behind) ∧
      (∀ c, before.getLast? = some c → p c = true) ∧ Stops (fun c => !p c) behind := by
  induction hn : s.length using Nat.strongRecOn generalizing s with
  | ind n ih =>
    subst hn
    cases s with
    | nil => cases h
    | cons d s =>
      cases hd : p d with
      | true =>
        rw [piecesWhere_separator hd] at h
        obtain ⟨hne, hword, before, behind, rfl, hbefore, hbehind⟩ :=
          ih s.length (Nat.lt_succ_self _) h rfl
        refine ⟨hne, hword, d :: before, behind, rfl, ?_, hbehind⟩
        intro c hc
        cases before with
        | nil => rw [← Option.some.inj hc]; exact hd
        | cons e before => exact hbefore c (by rw [← hc, List.getLast?_cons_cons])
      | false =>
        have hsplit := List.takeWhile_append_dropWhile (p := fun c => !p c) (l := d :: s)
        rw [piecesWhere_cons_of_neg hd, List.mem_cons] at h
        rcases h with rfl | h
        · exact ⟨takeWhile_ne_nil hd s, eq_false_of_mem_takeWhile, [], _, hsplit.symm, by simp,
            stops_dropWhile _ _⟩
        · have hshort : ((d :: s).dropWhile fun c => !p c).length < (d :: s).length := by
            rw [List.dropWhile_cons_of_pos (by simp [hd]), List.length_cons]
            exact Nat.lt_succ_of_le (List.dropWhile_suffix _).length_le
          obtain ⟨hne, hword, before, behind, hrest, hbefore, hbehind⟩ := ih _ hshort h rfl
          refine ⟨hne, hword, (d :: s).takeWhile (fun c => !p c) ++ before, behind, ?_, ?_, hbehind⟩
          · rw [List.append_assoc, ← hrest, hsplit]
          · -- the rest begins with a separator and the word does not, so something is between them
            intro c hc
            cases before with
            | nil =>
              obtain ⟨e, more, rfl⟩ := List.exists_cons_of_ne_nil hne
              have he := stops_dropWhile (fun c => !p c) (d :: s) e (by rw [hrest]; rfl)
              simp [hword e List.mem_cons_self] at he
            | cons e before =>
              refine hbefore c ?_
              rw [← hc, List.getLast?_append]
              simp [List.getLast?_cons]

end SchemaAccess.Text
