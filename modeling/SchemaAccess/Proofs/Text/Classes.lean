import SchemaAccess.Loose.Pattern
import SchemaAccess.Loose.Cleaning
import SchemaAccess.TypeRef
import Mathlib.Data.List.TakeWhile
import Mathlib.Tactic.Common

/-!
# Classes of characters keep apart

White space, names, types and punctuation are told apart by single characters wherever a schema is
read.  This file says which classes have no character in common.

* `apart_of_blankPoints` — white space is one of 25 characters, so a class is apart from it by
  evaluation.
* `Stops` — a text does not go on with a character of a class.
* `takeWhile_append_of_stops`, `dropWhile_append_of_stops` — a run of a class ends where the text
  behind it stops.
-/

namespace SchemaAccess.Text

/-! ## White space

White space is a class of Unicode with 25 members.  That no class used by the readers has any of
them in it is checked on the members; the rest of this section turns the check into laws about
characters. -/

/-- The code points of white space. -/
def blankPoints : List Nat :=
  [0x09, 0x0A, 0x0B, 0x0C, 0x0D, 0x20, 0x85, 0xA0, 0x1680, 0x2000, 0x2001, 0x2002, 0x2003, 0x2004,
    0x2005, 0x2006, 0x2007, 0x2008, 0x2009, 0x200A, 0x2028, 0x2029, 0x202F, 0x205F, 0x3000]

/-- White space is one of the listed code points.  So a statement about all white space is one about
a list. -/
theorem toNat_mem_blankPoints {c : Char} (h : isBlank c = true) : c.toNat ∈ blankPoints := by
  simp only [isBlank, inRanges, blankRanges, List.any_cons, List.any_nil, Bool.or_eq_true,
    Bool.and_eq_true, decide_eq_true_eq, Bool.or_false] at h
  simp only [blankPoints, List.mem_cons, List.not_mem_nil, or_false]
  omega

/-- A class of characters has no white space in it if none of the 25 code points is in it. -/
theorem apart_of_blankPoints {p : Char → Bool}
    (h : blankPoints.all (fun n => !p (Char.ofNat n)) = true) {c : Char} (hc : isBlank c = true) :
    p c = false := by
  have hp := List.all_eq_true.1 h _ (toNat_mem_blankPoints hc)
  rw [Char.ofNat_toNat] at hp
  simpa using hp

/-- White space is no part of a name. -/
theorem isNameChar_of_isBlank {c : Char} (h : isBlank c = true) : isNameChar c = false :=
  apart_of_blankPoints (by decide +kernel) h

theorem isBlank_space : isBlank ' ' = true := by decide

theorem isWord_of_isBlank {c : Char} (h : isBlank c = true) : isWord c = false :=
  apart_of_blankPoints (by decide +kernel) h

/-- A class without white space has none in it, read the other way. -/
theorem isBlank_of_apart {p : Char → Bool} (h : ∀ c, isBlank c = true → p c = false) {c : Char}
    (hc : p c = true) : isBlank c = false := by
  rw [← Bool.not_eq_true]
  intro hb
  rw [h c hb] at hc
  cases hc

theorem isBlank_of_isNameChar {c : Char} (h : isNameChar c = true) : isBlank c = false :=
  isBlank_of_apart (fun _ => isNameChar_of_isBlank) h

theorem isNameStart_of_isBlank {c : Char} (h : isBlank c = true) : isNameStart c = false := by
  rw [← Bool.not_eq_true]
  intro hs
  rw [isBlank_of_isNameChar (isNameChar_of_isNameStart hs)] at h
  cases h

/-- That no character of a list is in a class can be checked by evaluation. -/
theorem forall_mem_eq_false {p : Char → Bool} {s : List Char} (h : s.all (fun c => !p c) = true) :
    ∀ c ∈ s, p c = false := fun c hc => by
  simpa using List.all_eq_true.1 h c hc

/-- A letter is told by its code point. -/
theorem toNat_of_isAlpha {c : Char} (h : c.isAlpha = true) :
    (65 ≤ c.toNat ∧ c.toNat ≤ 90) ∨ (97 ≤ c.toNat ∧ c.toNat ≤ 122) := by
  have hval : (decide (c.val ≥ 'A'.val ∧ c.val ≤ 'Z'.val) ||
    (decide (c.val ≥ 'a'.val) && decide (c.val ≤ 'z'.val))) = true := h
  simp only [Bool.or_eq_true, Bool.and_eq_true, decide_eq_true_eq, UInt32.le_iff_toNat_le,
    ge_iff_le] at hval
  exact hval

theorem toNat_of_isDigit {c : Char} (h : c.isDigit = true) : 48 ≤ c.toNat ∧ c.toNat ≤ 57 :=
  Char.isDigit_iff_toNat.1 h

/-- A character of a class is not a character outside it. -/
theorem ne_of_class {p : Char → Bool} {c d : Char} (hc : p c = true) (hd : p d = false) :
    c ≠ d := by
  rintro rfl
  rw [hc] at hd
  cases hd

/-! ## Runs of a class

The longest run of a class at the front of a text ends where the text does not go on with the class.
`Stops` is that condition on what follows, and the two laws at the end are how a run is taken from a
text that is known. -/

/-- The text does not begin with a character of class `p`. -/
def Stops (p : Char → Bool) (s : List Char) : Prop := ∀ c, s.head? = some c → p c = false

theorem stops_nil (p : Char → Bool) : Stops p [] := fun _ h => by simp at h

theorem stops_cons {p : Char → Bool} {c : Char} (h : p c = false) (rest : List Char) :
    Stops p (c :: rest) := fun d hd => by
  rw [List.head?_cons, Option.some.injEq] at hd
  rw [← hd]
  exact h

/-- Nothing of a class is left behind a run of it. -/
theorem stops_dropWhile (p : Char → Bool) (s : List Char) : Stops p (s.dropWhile p) := by
  intro c hc
  have hfirst := List.head?_dropWhile_not p s
  rw [hc] at hfirst
  simpa using hfirst

/-- A run is taken away once, so that taking it away again changes nothing. -/
theorem dropWhile_dropWhile (p : Char → Bool) (s : List Char) :
    (s.dropWhile p).dropWhile p = s.dropWhile p := by
  have := List.head?_dropWhile_not p s
  cases hs : s.dropWhile p with
  | nil => rfl
  | cons c cs =>
    rw [hs] at this
    exact List.dropWhile_cons_of_neg (by simpa using this)

variable {p : Char → Bool} {s rest : List Char}

/-- A text without characters of the class stops; should it be empty, what follows it must. -/
theorem stops_append (hs : ∀ c ∈ s, p c = false) (hr : Stops p rest) : Stops p (s ++ rest) := by
  cases s with
  | nil => exact hr
  | cons c cs => exact stops_cons (hs c List.mem_cons_self) (cs ++ rest)

/-- **A run ends where the text behind it stops.**  This law and `dropWhile_append_of_stops` are how
every recogniser is computed on a text whose parts are known. -/
theorem takeWhile_append_of_stops (hs : ∀ c ∈ s, p c = true) (hr : Stops p rest) :
    (s ++ rest).takeWhile p = s := by
  rw [List.takeWhile_append_of_pos hs]
  cases rest with
  | nil => rw [List.takeWhile_nil, List.append_nil]
  | cons c cs => rw [List.takeWhile_cons_of_neg (by simp [hr c rfl]), List.append_nil]

/-- Behind a run that ends where the text behind it stops, this text is left. -/
theorem dropWhile_append_of_stops (hs : ∀ c ∈ s, p c = true) (hr : Stops p rest) :
    (s ++ rest).dropWhile p = rest := by
  rw [List.dropWhile_append_of_pos hs]
  cases rest with
  | nil => rw [List.dropWhile_nil]
  | cons c cs => rw [List.dropWhile_cons_of_neg (by simp [hr c rfl])]

end SchemaAccess.Text

namespace SchemaAccess.Loose

open Text

theorem isDirectiveChar_of_isBlank {c : Char} (h : isBlank c = true) :
    isDirectiveChar c = false :=
  apart_of_blankPoints (by decide +kernel) h

/-- White space is no part of a type, which is why a type ends at its first white space. -/
theorem isTypeChar_of_isBlank {c : Char} (h : isBlank c = true) : isTypeChar c = false :=
  apart_of_blankPoints (by decide +kernel) h

/-! ## Names and types

A name is not empty and has only name characters; a type has brackets and marks besides. -/

theorem ne_nil_of_isName {name : List Char} (h : IsName name) : name ≠ [] := by
  rintro rfl
  exact h

/-- Every character of a name is a name character, the first one included. -/
theorem isNameChar_of_mem {name : List Char} (h : IsName name) {c : Char} (hc : c ∈ name) :
    isNameChar c = true := by
  cases name with
  | nil => simp at hc
  | cons d ds =>
    rcases List.mem_cons.1 hc with rfl | hc
    · exact isNameChar_of_isNameStart h.1
    · exact h.2 c hc

/-- The mark of a required type is a type character. -/
theorem isTypeChar_of_mem_mark {required : Bool} {c : Char} (hc : c ∈ TypeRef.mark required) :
    isTypeChar c = true := by
  cases required with
  | false => simp [TypeRef.mark] at hc
  | true =>
    rw [TypeRef.mark, if_pos rfl, List.mem_singleton] at hc
    rw [hc]
    decide

/-- A type reference is spelled in type characters, so the search for a type takes all of it.  By
induction on the reference. -/
theorem isTypeChar_of_mem {t : TypeRef} (h : IsName t.baseName.toList) {c : Char}
    (hc : c ∈ t.chars) : isTypeChar c = true := by
  induction t with
  | named name required =>
    rcases List.mem_append.1 hc with hc | hc
    · rw [isTypeChar, isNameChar_of_mem h hc]
      rfl
    · exact isTypeChar_of_mem_mark hc
  | list element required ih =>
    simp only [TypeRef.chars, List.mem_append, List.mem_cons] at hc
    rcases hc with (rfl | hc) | rfl | hc
    · decide
    · exact ih h hc
    · decide
    · exact isTypeChar_of_mem_mark hc

end SchemaAccess.Loose
