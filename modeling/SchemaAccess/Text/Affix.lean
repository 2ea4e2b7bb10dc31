/-!
# Removing and replacing fixed parts of a text

* `dropFront?`, `dropBack?` — the text without a given beginning or end, if it has it.
* `replaceFirst?` — the text with the first occurrence of a part replaced, if there is one.

`dropFront?_eq_some_iff` and `dropBack?_eq_some_iff` say what the first two do in terms of `++`.
-/

namespace SchemaAccess.Text

/-- The rest of a text that begins with `front`. -/
def dropFront? : (front s : List Char) → Option (List Char)
  | [], s => some s
  | _ :: _, [] => none
  | f :: fs, c :: cs => if f = c then dropFront? fs cs else none

/-- What stands before `back` in a text that ends with it. -/
def dropBack? (back s : List Char) : Option (List Char) :=
  (dropFront? back.reverse s.reverse).map List.reverse

/-- The text with the first occurrence of `old` replaced by `new`. -/
def replaceFirst? (old new : List Char) : List Char → Option (List Char)
  | [] => if old = [] then some new else none
  | c :: cs =>
    match dropFront? old (c :: cs) with
    | some rest => some (new ++ rest)
    | none => (replaceFirst? old new cs).map (c :: ·)

/-! ## Laws -/

theorem dropFront?_eq_some_iff {front s rest : List Char} :
    dropFront? front s = some rest ↔ s = front ++ rest := by
  induction front generalizing s with
  | nil => simp [dropFront?, eq_comm]
  | cons f fs ih =>
    cases s with
    | nil => simp [dropFront?]
    | cons c cs =>
      by_cases h : f = c
      · simp [dropFront?, h, ih]
      · simp [dropFront?, h, Ne.symm h]

theorem dropBack?_eq_some_iff {back s rest : List Char} :
    dropBack? back s = some rest ↔ s = rest ++ back := by
  constructor
  · intro h
    obtain ⟨r, hr, rfl⟩ := Option.map_eq_some_iff.1 h
    have := congrArg List.reverse (dropFront?_eq_some_iff.1 hr)
    simpa using this
  · rintro rfl
    exact Option.map_eq_some_iff.2 ⟨rest.reverse, dropFront?_eq_some_iff.2 (by simp), by simp⟩

end SchemaAccess.Text
