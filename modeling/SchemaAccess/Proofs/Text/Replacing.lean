import Mathlib.Data.List.Infix
import SchemaAccess.Text.Affix

/-!
# Replacing the first occurrence of a word

* `IsFirst` — a word stands between two parts of a text, and nowhere before.
* `replaceFirst?_of_isFirst`, `replaceFirst?_eq_none_iff` — what becomes of a text in which a word
  is replaced, and when there is none to replace.
* `exists_isFirst` — a word that occurs has a first occurrence.
* `append_word_eq_iff` — two ways to find a word in one text, if the word does not overlap itself.
-/

namespace SchemaAccess.Text

variable {old new s : List Char}

/-- The text made up of `front`, `word` and `back` has no earlier occurrence of the word. -/
def IsFirst (word front back : List Char) : Prop :=
  ∀ before after, front ++ word ++ back = before ++ word ++ after → front.length ≤ before.length

theorem isFirst_nil (word back : List Char) : IsFirst word [] back :=
  fun _ _ _ => Nat.zero_le _

/-- Behind a character that no occurrence starts with, the first occurrence is the first one of
all. -/
theorem IsFirst.cons {c : Char} {front back : List Char} (h : IsFirst old front back)
    (hc : ¬ old <+: c :: (front ++ old ++ back)) : IsFirst old (c :: front) back := by
  intro before after heq
  cases before with
  | nil => exact absurd ⟨after, heq.symm⟩ hc
  | cons d before =>
    obtain ⟨-, hrest⟩ := List.cons.inj heq
    exact Nat.succ_le_succ (h before after hrest)

theorem IsFirst.tail {c : Char} {front back : List Char} (h : IsFirst old (c :: front) back) :
    IsFirst old front back := fun before after heq =>
  Nat.le_of_succ_le_succ (h (c :: before) after (congrArg (c :: ·) heq))

theorem IsFirst.not_isPrefix_cons {c : Char} {front back : List Char}
    (h : IsFirst old (c :: front) back) : ¬ old <+: c :: (front ++ old ++ back) := by
  rintro ⟨after, hafter⟩
  exact absurd (h [] after hafter.symm) (Nat.not_succ_le_zero _)

theorem dropFront?_eq_none_iff : dropFront? old s = none ↔ ¬ old <+: s := by
  rw [Option.eq_none_iff_forall_ne_some]
  constructor
  · rintro h ⟨rest, rfl⟩
    exact h rest (dropFront?_eq_some_iff.2 rfl)
  · exact fun h rest hrest => h ⟨rest, (dropFront?_eq_some_iff.1 hrest).symm⟩

/-- Replacing the first occurrence leaves what stands around it. -/
theorem replaceFirst?_of_isFirst {front back : List Char} (h : IsFirst old front back) :
    replaceFirst? old new (front ++ old ++ back) = some (front ++ new ++ back) := by
  induction front with
  | nil =>
    cases hs : [] ++ old ++ back with
    | nil =>
      obtain ⟨rfl, rfl⟩ := List.append_eq_nil_iff.1 hs
      simp [replaceFirst?]
    | cons c cs =>
      have hback : c :: cs = old ++ back := hs.symm
      rw [replaceFirst?, dropFront?_eq_some_iff.2 hback]
      rfl
  | cons c front ih =>
    have hnone : dropFront? old (c :: (front ++ old ++ back)) = none :=
      dropFront?_eq_none_iff.2 h.not_isPrefix_cons
    rw [List.cons_append, List.cons_append, replaceFirst?, hnone]
    exact congrArg (Option.map (c :: ·)) (ih h.tail)

/-- A word that occurs in a text has a first occurrence. -/
theorem exists_isFirst (h : old <:+: s) : ∃ front back, s = front ++ old ++ back ∧
    IsFirst old front back := by
  induction s with
  | nil =>
    obtain rfl := List.infix_nil.1 h
    exact ⟨[], [], rfl, isFirst_nil [] []⟩
  | cons c cs ih =>
    by_cases hbegins : old <+: c :: cs
    · obtain ⟨back, hback⟩ := hbegins
      exact ⟨[], back, hback.symm, isFirst_nil old back⟩
    · obtain ⟨front, back, rfl, hfirst⟩ := ih ((List.infix_cons_iff.1 h).resolve_left hbegins)
      exact ⟨c :: front, back, rfl, hfirst.cons hbegins⟩

/-- A word that does not occur is not replaced. -/
theorem replaceFirst?_eq_none_iff : replaceFirst? old new s = none ↔ ¬ old <:+: s := by
  constructor
  · intro hnone h
    obtain ⟨front, back, rfl, hfirst⟩ := exists_isFirst h
    rw [replaceFirst?_of_isFirst hfirst] at hnone
    cases hnone
  · intro h
    induction s with
    | nil =>
      have hold : old ≠ [] := by
        rintro rfl
        exact h List.infix_rfl
      rw [replaceFirst?, if_neg hold]
    | cons c cs ih =>
      rw [List.infix_cons_iff, not_or] at h
      rw [replaceFirst?, dropFront?_eq_none_iff.2 h.1]
      exact congrArg (Option.map (c :: ·)) (ih h.2)

/-! ## A word in two places -/

/-- An occurrence of a word that begins within another one, and not where that one does, begins
behind it: the first character does not come again before the end. -/
theorem exists_eq_append_of_overlap {c : Char} {word middle rest back : List Char} (hc : c ∉ word)
    (hmiddle : middle ≠ []) (h : (c :: word) ++ back = middle ++ (c :: word) ++ rest) :
    ∃ gap, middle = (c :: word) ++ gap ∧ back = gap ++ (c :: word) ++ rest := by
  rw [List.append_assoc] at h
  obtain ⟨gap, hgap, hback⟩ | ⟨inner, hinner, hrest⟩ := List.append_eq_append_iff.1 h
  · exact ⟨gap, hgap, by rw [hback, List.append_assoc]⟩
  · obtain ⟨d, middle, rfl⟩ := List.exists_cons_of_ne_nil hmiddle
    cases inner with
    | nil =>
      rw [List.append_nil] at hinner
      exact ⟨[], by rw [List.append_nil, hinner], hrest.symm⟩
    | cons e inner =>
      -- what is left of the first word begins with the second one, so with its first character
      obtain ⟨rfl, -⟩ := List.cons.inj hrest
      obtain ⟨-, rfl⟩ := List.cons.inj hinner
      exact absurd (List.mem_append_right middle (List.mem_cons_self)) hc

/-- A word whose first character does not come again in it stands in two places of a text only if
these are the same or do not meet. -/
theorem append_word_eq_iff {c : Char} {word front back before after : List Char} (hc : c ∉ word) :
    front ++ (c :: word) ++ back = before ++ (c :: word) ++ after ↔
      front = before ∧ back = after ∨
        (∃ middle, before = front ++ (c :: word) ++ middle ∧
          back = middle ++ (c :: word) ++ after) ∨
        ∃ middle, front = before ++ (c :: word) ++ middle ∧
          after = middle ++ (c :: word) ++ back := by
  constructor
  · intro h
    rw [List.append_assoc, List.append_assoc] at h
    obtain ⟨gap, rfl, hgap⟩ | ⟨gap, rfl, hgap⟩ := List.append_eq_append_iff.1 h
    · by_cases hnil : gap = []
      · subst hnil
        exact .inl ⟨(List.append_nil _).symm, List.append_cancel_left hgap⟩
      · rw [← List.append_assoc] at hgap
        obtain ⟨middle, rfl, hback⟩ := exists_eq_append_of_overlap hc hnil hgap
        exact .inr (.inl ⟨middle, (List.append_assoc ..).symm, hback⟩)
    · by_cases hnil : gap = []
      · subst hnil
        exact .inl ⟨List.append_nil _, (List.append_cancel_left hgap).symm⟩
      · rw [← List.append_assoc] at hgap
        obtain ⟨middle, rfl, hback⟩ := exists_eq_append_of_overlap hc hnil hgap
        exact .inr (.inr ⟨middle, (List.append_assoc ..).symm, hback⟩)
  · rintro (⟨rfl, rfl⟩ | ⟨middle, rfl, rfl⟩ | ⟨middle, rfl, rfl⟩)
    · rfl
    · simp only [List.append_assoc]
    · simp only [List.append_assoc]

end SchemaAccess.Text
