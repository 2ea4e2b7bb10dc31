/-!
# Names

A name is a letter or underscore followed by letters, digits and underscores, all ASCII, in schemas
as in the code generated from them.

* `isNameStart`, `isNameChar` — the two classes.
* `IsName` — a text that is one name.
* `name?` — the longest name at the front of a text, with what follows it.

`name?_append` says that a name is read back when what follows cannot extend it;
`append_of_name?` says that nothing is lost.
-/

namespace SchemaAccess.Text

/-- True of a character that may begin a name. -/
def isNameStart (c : Char) : Bool := c.isAlpha || c == '_'

/-- True of a character that may stand inside a name. -/
def isNameChar (c : Char) : Bool := c.isAlphanum || c == '_'

/-- A text that is one name. -/
def IsName : List Char → Prop
  | [] => False
  | c :: cs => isNameStart c = true ∧ ∀ d ∈ cs, isNameChar d = true

instance : DecidablePred IsName
  | [] => inferInstanceAs (Decidable False)
  | c :: cs =>
    decidable_of_iff (isNameStart c = true ∧ cs.all isNameChar = true)
      (and_congr_right fun _ => List.all_eq_true)

/-- The longest name at the front of a text, and the rest of the text. -/
def name? : List Char → Option (List Char × List Char)
  | [] => none
  | c :: cs =>
    if isNameStart c then some (c :: cs.takeWhile isNameChar, cs.dropWhile isNameChar) else none

/-! ## Laws -/

theorem isNameChar_of_isNameStart {c : Char} (h : isNameStart c = true) : isNameChar c = true := by
  simp only [isNameStart, isNameChar, Char.isAlphanum, Bool.or_eq_true] at h ⊢
  exact h.imp_left Or.inl

/-- A name and what follows it make up the text. -/
theorem append_of_name? {s name rest : List Char} (h : name? s = some (name, rest)) :
    name ++ rest = s := by
  cases s with
  | nil => simp [name?] at h
  | cons c cs =>
    simp only [name?] at h
    split at h
    · simp only [Option.some.injEq, Prod.mk.injEq] at h
      rw [← h.1, ← h.2, List.cons_append, List.takeWhile_append_dropWhile]
    · exact absurd h (by simp)

theorem length_lt_of_name? {s name rest : List Char} (h : name? s = some (name, rest)) :
    rest.length < s.length := by
  cases s with
  | nil => simp [name?] at h
  | cons c cs =>
    simp only [name?] at h
    split at h
    · simp only [Option.some.injEq, Prod.mk.injEq] at h
      rw [← h.2]
      exact Nat.lt_succ_of_le (List.dropWhile_suffix _).length_le
    · exact absurd h (by simp)

/-- What is read as a name is one. -/
theorem isName_of_name? {s name rest : List Char} (h : name? s = some (name, rest)) :
    IsName name := by
  cases s with
  | nil => simp [name?] at h
  | cons c cs =>
    simp only [name?] at h
    split at h
    · next hc =>
      simp only [Option.some.injEq, Prod.mk.injEq] at h
      rw [← h.1]
      exact ⟨hc, fun d hd => List.all_eq_true.1 List.all_takeWhile d hd⟩
    · exact absurd h (by simp)

/-- A name is read back where the text after it does not begin with a name character. -/
theorem name?_append {name rest : List Char} (hn : IsName name)
    (hr : ∀ c, rest.head? = some c → isNameChar c = false) :
    name? (name ++ rest) = some (name, rest) := by
  cases name with
  | nil => exact absurd hn (by simp [IsName])
  | cons c cs =>
    obtain ⟨hc, hcs⟩ := hn
    have hrest : rest.takeWhile isNameChar = [] ∧ rest.dropWhile isNameChar = rest := by
      cases rest with
      | nil => exact ⟨rfl, rfl⟩
      | cons d ds => simp [hr d rfl]
    rw [List.cons_append, name?, if_pos hc, List.takeWhile_append_of_pos hcs,
      List.dropWhile_append_of_pos hcs, hrest.1, hrest.2, List.append_nil]

end SchemaAccess.Text
