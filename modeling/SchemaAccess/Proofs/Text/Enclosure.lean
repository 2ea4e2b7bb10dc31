import SchemaAccess.Text.Blank

/-!
# Texts between runs of a class

Trimming takes characters of a class off the ends of a text.  Types are trimmed several times, each
time of another class, before the name inside is reached; what all that comes to is said by one
relation, which does not care how often or in which order something was taken off.

* `Encloses` — a text is another one between two runs of a class.
* `encloses_trimWhere`, `encloses_trimEndWhere` — what is trimmed off is such a pair of runs.
* `trimWhere_eq_of_encloses` — trimming finds what stands between the runs.
-/

namespace SchemaAccess.Text

variable {p q : Char → Bool} {s t u : List Char}

/-- The text `s` is the text `t` between two runs of class `p`. -/
def Encloses (p : Char → Bool) (s t : List Char) : Prop :=
  ∃ before after, s = before ++ t ++ after ∧ (∀ c ∈ before, p c = true) ∧ ∀ c ∈ after, p c = true

/-- What is taken off in two steps may be taken off in one. -/
theorem Encloses.trans (h : Encloses p s t) (h' : Encloses p t u) : Encloses p s u := by
  obtain ⟨before, after, rfl, hb, ha⟩ := h
  obtain ⟨before', after', rfl, hb', ha'⟩ := h'
  refine ⟨before ++ before', after' ++ after, by simp, fun c hc => ?_, fun c hc => ?_⟩
  · exact (List.mem_append.1 hc).elim (hb c) (hb' c)
  · exact (List.mem_append.1 hc).elim (ha' c) (ha c)

/-- A smaller class takes off less. -/
theorem Encloses.mono (h : Encloses q s t) (hq : ∀ c, q c = true → p c = true) :
    Encloses p s t := by
  obtain ⟨before, after, hs, hb, ha⟩ := h
  exact ⟨before, after, hs, fun c hc => hq c (hb c hc), fun c hc => hq c (ha c hc)⟩

/-! ## Trimming

Each way of trimming takes off a pair of runs, one of which may be empty.  Conversely, if the text
between two runs has nothing of the class, trimming finds it. -/

theorem encloses_dropWhile (p : Char → Bool) (s : List Char) : Encloses p s (s.dropWhile p) :=
  ⟨s.takeWhile p, [], by simp, fun c hc => List.all_eq_true.1 List.all_takeWhile c hc, by simp⟩

theorem encloses_trimEndWhere (p : Char → Bool) (s : List Char) :
    Encloses p s (trimEndWhere p s) := by
  refine ⟨[], (s.reverse.takeWhile p).reverse, ?_, by simp, fun c hc => ?_⟩
  · rw [List.nil_append, trimEndWhere, ← List.reverse_append, List.takeWhile_append_dropWhile,
      List.reverse_reverse]
  · exact List.all_eq_true.1 List.all_takeWhile c (List.mem_reverse.1 hc)

theorem encloses_trimWhere (p : Char → Bool) (s : List Char) : Encloses p s (trimWhere p s) :=
  (encloses_dropWhile p s).trans (encloses_trimEndWhere p _)

/-- Characters of the class at the end are all taken off. -/
theorem trimEndWhere_append_of_forall (s : List Char) (ht : ∀ c ∈ t, p c = true) :
    trimEndWhere p (s ++ t) = trimEndWhere p s := by
  rw [trimEndWhere, List.reverse_append, List.dropWhile_append_of_pos fun c hc =>
    ht c (List.mem_reverse.1 hc), trimEndWhere]

/-- A text without characters of the class is not trimmed. -/
theorem trimWhere_eq_self (h : ∀ c ∈ s, p c = false) : trimWhere p s = s := by
  have hfront : s.dropWhile p = s := by
    cases s with
    | nil => rfl
    | cons c cs => exact List.dropWhile_cons_of_neg (by simp [h c List.mem_cons_self])
  rw [trimWhere, hfront]
  exact trimEndWhere_eq_self fun c hc => h c (List.mem_of_getLast? hc)

/-- **Trimming finds the text between the runs**, if there is nothing of the class in it.  So what
was taken off before, and how often, makes no difference. -/
theorem trimWhere_eq_of_encloses (h : Encloses p s t) (ht : ∀ c ∈ t, p c = false) :
    trimWhere p s = t := by
  obtain ⟨before, after, rfl, hb, ha⟩ := h
  cases t with
  | nil =>
    have hall : ∀ c ∈ before ++ after, p c = true := fun c hc =>
      (List.mem_append.1 hc).elim (hb c) (ha c)
    have hnone : (before ++ after ++ []).dropWhile p = [] := List.dropWhile_append_of_pos hall
    rw [List.append_nil] at hnone ⊢
    rw [trimWhere, hnone]
    rfl
  | cons c cs =>
    have hc : ¬ p c = true := by simp [ht c List.mem_cons_self]
    rw [trimWhere, List.append_assoc, List.dropWhile_append_of_pos hb, List.cons_append,
      List.dropWhile_cons_of_neg hc, ← List.cons_append, trimEndWhere_append_of_forall _ ha]
    exact trimEndWhere_eq_self fun d hd => ht d (List.mem_of_getLast? hd)

end SchemaAccess.Text
