import Mathlib.Data.List.Chain
import SchemaAccess.Proofs.Layout.Cleaning
import SchemaAccess.Proofs.Layout.CleanedText
import SchemaAccess.Proofs.Loose.Places

/-!
# Constants as default values

A default value is an equals sign and a constant: a number, a name, a string, a list or an object,
nested in any way, with white space, comments and commas in it.  It is cleaned on its own, like any
run of marks; in an argument list it is passed over.  Braces are in its cleaned text exactly if
there is an object in it.

* `IsConstant` — the constants, with what stands in brackets and in braces.
* `Default` — a default value.
* `Default.clean_text`, `Default.output_list` — what cleaning makes of it, outside and inside of the
  argument list of a directive.
* `Default.isValueChar_of_mem`, `Default.exists_opening` — its cleaned text without an object, and
  with one.
-/

namespace SchemaAccess.Layout

open Text Loose

/-! ## Constants -/

/-- True of a character of a number or of a name. -/
def isScalarChar (c : Char) : Bool := isNameChar c || ['+', '-', '.'].contains c

/-- White space, comments and commas. -/
def IsIgnored (marks : List Mark) : Prop := ∀ m ∈ marks, (∃ f, m = .filler f) ∨ m = .char ','

/-- What a piece of a constant is. -/
inductive Part where
  | value
  /-- What stands between brackets. -/
  | elements
  /-- What stands between braces. -/
  | entries

/-- The pieces of constants. -/
inductive IsConstant : Part → List Mark → Prop
  /-- A number, `true`, `false`, `null` or the name of an enum value. -/
  | scalar {c : Char} {more : List Char} (chars : ∀ d ∈ c :: more, isScalarChar d = true) :
    IsConstant .value ((c :: more).map Mark.char)
  | literal (l : Literal) : IsConstant .value [.literal l]
  | list {marks : List Mark} (elements : IsConstant .elements marks) :
    IsConstant .value (.char '[' :: (marks ++ [.char ']']))
  | object {marks : List Mark} (entries : IsConstant .entries marks) :
    IsConstant .value (.char '\x7b' :: (marks ++ [.char '\x7d']))
  | noElement {ignored : List Mark} (isIgnored : IsIgnored ignored) : IsConstant .elements ignored
  | element {ignored value more : List Mark} (isIgnored : IsIgnored ignored)
    (first : IsConstant .value value) (others : IsConstant .elements more) :
    IsConstant .elements (ignored ++ (value ++ more))
  | noEntry {ignored : List Mark} (isIgnored : IsIgnored ignored) : IsConstant .entries ignored
  | entry {ignored before behind value more : List Mark} {name : List Char}
    (isIgnored : IsIgnored ignored) (isName : IsName name) (beforeColon : IsIgnored before)
    (behindColon : IsIgnored behind) (first : IsConstant .value value)
    (others : IsConstant .entries more) :
    IsConstant .entries
      (ignored ++ (name.map Mark.char ++ (before ++ .char ':' :: (behind ++ (value ++ more)))))

/-- An equals sign and a constant behind it. -/
structure Default where
  before : Gap
  behind : Gap
  value : List Mark
  isConstant : IsConstant .value value
  /-- No string follows the empty string directly. -/
  apart : value.IsChain fun a b => a.isEmptyString = true → b.isLiteral = false

namespace Default

def marks (d : Default) : List Mark :=
  d.before.map Mark.filler ++ .char '=' :: (d.behind.map Mark.filler ++ d.value)

def text (stage : Stage) (d : Default) : List Char := d.marks.flatMap (Mark.text stage)

/-- An object is in the constant, or is the constant. -/
def HasObject (d : Default) : Prop := Mark.char '\x7b' ∈ d.value

def HasComment (d : Default) : Prop := ∃ text onLine, Mark.filler (.comment text onLine) ∈ d.marks

/-- Behind the empty string no quote may follow. -/
def Fits (d : Default) (rest : List Char) : Prop :=
  d.value.getLast?.any Mark.isEmptyString = true → rest.head? ≠ some '"'

end Default

/-! ## The characters of constants

Brackets, braces and colons come into a constant in pairs and in fixed places, but for cleaning only
the characters count, and which of them need an object. -/

/-- True of a character of a default value. -/
def isDefaultChar (c : Char) : Bool :=
  isValueChar c || ['=', ':', '\x7b', '\x7d'].contains c

/-- The characters of default values are tame, so a default value is cleaned mark by mark. -/
theorem isTame_isDefaultChar : IsTame isDefaultChar := forall_mem_eq_false (by decide)

theorem isValueChar_of_isScalarChar {c : Char} (h : isScalarChar c = true) :
    isValueChar c = true := by
  rw [isScalarChar, Bool.or_eq_true] at h
  rw [isValueChar, Bool.or_eq_true]
  refine h.imp_right fun h => ?_
  simp only [List.contains_iff_mem, List.mem_cons, List.not_mem_nil, or_false] at h ⊢
  tauto

theorem isDefaultChar_of_isValueChar {c : Char} (h : isValueChar c = true) :
    isDefaultChar c = true := by
  rw [isDefaultChar, h]
  rfl

/-- The only character among ignored marks is the comma. -/
theorem eq_comma_of_isIgnored {ignored : List Mark} (h : IsIgnored ignored) {c : Char}
    (hc : Mark.char c ∈ ignored) : c = ',' := by
  rcases h _ hc with ⟨f, hf⟩ | hf
  · cases hf
  · exact Mark.char.inj hf

theorem mem_of_char_mem_map {name : List Char} {c : Char}
    (h : Mark.char c ∈ name.map Mark.char) : c ∈ name := by
  obtain ⟨d, hd, hc⟩ := List.mem_map.1 h
  exact Mark.char.inj hc ▸ hd

namespace IsConstant

variable {part : Part} {marks : List Mark} {c : Char}

theorem ne_nil (h : IsConstant .value marks) : marks ≠ [] := by
  cases h <;> simp

/-- A constant has only characters of default values in it, by induction on its pieces. -/
theorem isDefaultChar_of_mem (h : IsConstant part marks) :
    Mark.char c ∈ marks → isDefaultChar c = true := by
  have hignored : ∀ {ignored : List Mark}, IsIgnored ignored → Mark.char c ∈ ignored →
      isDefaultChar c = true := fun h hc => by
    rw [eq_comma_of_isIgnored h hc]
    decide
  induction h with
  | scalar chars =>
    exact fun hc => isDefaultChar_of_isValueChar
      (isValueChar_of_isScalarChar (chars c (mem_of_char_mem_map hc)))
  | literal l => exact fun hc => by simp at hc
  | list elements ih =>
    simp only [List.mem_cons, List.mem_append, Mark.char.injEq, List.not_mem_nil, or_false]
    rintro (rfl | hc | rfl)
    · decide
    · exact ih hc
    · decide
  | object entries ih =>
    simp only [List.mem_cons, List.mem_append, Mark.char.injEq, List.not_mem_nil, or_false]
    rintro (rfl | hc | rfl)
    · decide
    · exact ih hc
    · decide
  | noElement h => exact hignored h
  | element h first others ih ihOthers =>
    simp only [List.mem_append]
    rintro (hc | hc | hc)
    · exact hignored h hc
    · exact ih hc
    · exact ihOthers hc
  | noEntry h => exact hignored h
  | entry h isName beforeColon behindColon first others ih ihOthers =>
    simp only [List.mem_append, List.mem_cons, Mark.char.injEq]
    rintro (hc | hc | hc | rfl | hc | hc | hc)
    · exact hignored h hc
    · refine isDefaultChar_of_isValueChar (isValueChar_of_isScalarChar ?_)
      rw [isScalarChar, isNameChar_of_mem isName (mem_of_char_mem_map hc)]
      rfl
    · exact hignored beforeColon hc
    · decide
    · exact hignored behindColon hc
    · exact ih hc
    · exact ihOthers hc

/-- Without an object there are no colons and no braces, so a constant without one is a run of value
characters. -/
theorem isValueChar_of_mem (h : IsConstant part marks) (hpart : part ≠ .entries)
    (hobject : Mark.char '\x7b' ∉ marks) (hc : Mark.char c ∈ marks) : isValueChar c = true := by
  induction h with
  | scalar chars => exact isValueChar_of_isScalarChar (chars c (mem_of_char_mem_map hc))
  | literal l => simp at hc
  | list elements ih =>
    simp only [List.mem_cons, List.mem_append, Mark.char.injEq, List.not_mem_nil,
      or_false] at hc hobject
    rcases hc with rfl | hc | rfl
    · decide
    · exact ih (by simp) (fun h => hobject (.inr (.inl h))) hc
    · decide
  | object entries ih => simp at hobject
  | noElement h =>
    rw [eq_comma_of_isIgnored h hc]
    decide
  | element h first others ih ihOthers =>
    simp only [List.mem_append, not_or] at hc hobject
    rcases hc with hc | hc | hc
    · rw [eq_comma_of_isIgnored h hc]
      decide
    · exact ih (by simp) hobject.2.1 hc
    · exact ihOthers (by simp) hobject.2.2 hc
  | noEntry h => exact absurd rfl hpart
  | entry => exact absurd rfl hpart

end IsConstant

/-! ## First braces

What matters for the search is the first brace: behind one that opens, the block that is being read
cannot end.  A text of which each piece opens first, or has no brace, does so as a whole. -/

/-- The first brace of a text, if it has one, opens. -/
def FirstOpens (s : List Char) : Prop :=
  (∀ c ∈ s, isPlain c = true) ∨ ∃ more, s.dropWhile isPlain = '\x7b' :: more

/-- If the first brace opens in both texts, it does in the two together. -/
theorem FirstOpens.append {s t : List Char} (hs : FirstOpens s) (ht : FirstOpens t) :
    FirstOpens (s ++ t) := by
  rcases hs with hs | ⟨more, hmore⟩
  · rcases ht with ht | ⟨more, hmore⟩
    · exact .inl fun c hc => (List.mem_append.1 hc).elim (hs c) (ht c)
    · exact .inr ⟨more, by rw [List.dropWhile_append_of_pos hs, hmore]⟩
  · refine .inr ⟨more ++ t, ?_⟩
    rw [List.dropWhile_append, hmore]
    rfl

/-- What is left of ignored marks and of names has no braces. -/
theorem isPlain_of_mem_cleaned {marks : List Mark} (h : ∀ c, Mark.char c ∈ marks → isPlain c = true)
    {c : Char} (hc : c ∈ marks.flatMap (Mark.text .cleaned)) : isPlain c = true := by
  obtain ⟨m, hm, hc⟩ := List.mem_flatMap.1 hc
  cases m with
  | filler f =>
    exact isPlain_of_isBodyChar
      (isBodyChar_of_isItemChar (isItemChar_of_isBlank (isBlank_of_mem_filler hc)))
  | char d => rw [List.mem_singleton.1 hc]; exact h d hm
  | literal l => rw [List.mem_singleton.1 hc]; decide

theorem isPlain_of_isValueChar {c : Char} (h : isValueChar c = true) : isPlain c = true :=
  isPlain_of_isBodyChar (isBodyChar_of_isItemChar (isItemChar_of_isValueChar h))

/-- Ignored marks have no braces. -/
theorem firstOpens_of_isIgnored {ignored : List Mark} (h : IsIgnored ignored) :
    FirstOpens (ignored.flatMap (Mark.text .cleaned)) :=
  .inl fun _ => isPlain_of_mem_cleaned fun c hc => by
    rw [eq_comma_of_isIgnored h hc]
    decide

/-- **The first brace of a constant opens.**  By induction on its pieces: an object begins with one,
and what is in front of it in a list has none or opens first itself. -/
theorem IsConstant.firstOpens {part : Part} {marks : List Mark} (h : IsConstant part marks) :
    FirstOpens (marks.flatMap (Mark.text .cleaned)) := by
  induction h with
  | scalar chars =>
    exact .inl fun _ => isPlain_of_mem_cleaned fun c hc =>
      isPlain_of_isValueChar (isValueChar_of_isScalarChar (chars c (mem_of_char_mem_map hc)))
  | literal l => exact .inl fun _ => isPlain_of_mem_cleaned fun c hc => by simp at hc
  | list elements ih =>
    rw [List.flatMap_cons, List.flatMap_append]
    refine FirstOpens.append (.inl ?_) (ih.append (.inl ?_)) <;>
      exact List.all_eq_true.1 (by decide)
  | object entries ih => exact .inr ⟨_, rfl⟩
  | noElement h => exact firstOpens_of_isIgnored h
  | element h first others ih ihOthers =>
    rw [List.flatMap_append, List.flatMap_append]
    exact (firstOpens_of_isIgnored h).append (ih.append ihOthers)
  | noEntry h => exact firstOpens_of_isIgnored h
  | entry h isName beforeColon behindColon first others ih ihOthers =>
    have hname : ∀ c, Mark.char c ∈ List.map Mark.char _ → isPlain c = true := fun c hc =>
      isPlain_of_isBodyChar (isBodyChar_of_isItemChar (isItemChar_of_isNameChar
        (isNameChar_of_mem isName (mem_of_char_mem_map hc))))
    have hcolon : FirstOpens (Mark.text .cleaned (.char ':')) :=
      .inl (List.all_eq_true.1 (by decide))
    rw [List.flatMap_append, List.flatMap_append, List.flatMap_append, List.flatMap_cons,
      List.flatMap_append, List.flatMap_append]
    exact (firstOpens_of_isIgnored h).append <|
      FirstOpens.append (.inl fun _ => isPlain_of_mem_cleaned hname) <|
      (firstOpens_of_isIgnored beforeColon).append <| hcolon.append <|
      (firstOpens_of_isIgnored behindColon).append (ih.append ihOthers)

/-! ## Default values

A default value is cleaned to its text without strings and comments.  Whether an object is in it
decides between the two laws at the end. -/

namespace Default

variable (d : Default) {rest : List Char}

theorem isDefaultChar_of_mem {c : Char} (hc : Mark.char c ∈ d.marks) : isDefaultChar c = true := by
  simp only [marks, List.mem_append, List.mem_map, List.mem_cons, Mark.char.injEq] at hc
  rcases hc with ⟨f, -, hf⟩ | rfl | ⟨f, -, hf⟩ | hc
  · cases hf
  · decide
  · cases hf
  · exact d.isConstant.isDefaultChar_of_mem hc

/-- No string follows the empty string in the marks of a default value, since only its constant has
strings. -/
theorem isChain_marks :
    d.marks.IsChain fun a b => a.isEmptyString = true → b.isLiteral = false := by
  have hfront : ∀ (gap : Gap) {more : List Mark},
      (more.IsChain fun a b => a.isEmptyString = true → b.isLiteral = false) →
      (gap.map Mark.filler ++ more).IsChain fun a b =>
        a.isEmptyString = true → b.isLiteral = false := by
    intro gap more hmore
    induction gap with
    | nil => exact hmore
    | cons f gap ih =>
      rw [List.map_cons, List.cons_append, List.isChain_cons]
      exact ⟨fun _ _ h => (by cases h), ih⟩
  refine hfront d.before (List.isChain_cons.2 ⟨fun _ _ h => ?_, hfront d.behind d.apart⟩)
  cases h

theorem getLast?_marks : d.marks.getLast? = d.value.getLast? := by
  have hvalue := List.getLast?_eq_some_getLast d.isConstant.ne_nil
  rw [marks, List.getLast?_append, List.getLast?_cons, List.getLast?_append, hvalue]
  rfl

variable {d}

/-- A default value is cleaned on its own. -/
theorem clean_text (h : d.Fits rest) :
    clean (d.text .written ++ rest) = d.text .cleaned ++ clean rest :=
  clean_marks isTame_isDefaultChar (fun _ => d.isDefaultChar_of_mem) d.isChain_marks
    (by rw [getLast?_marks]; exact h)

/-- In an argument list a mark is passed over, unless it is a comment: a comment does not end there
with its line, and quotes and parentheses in it would count. -/
theorem output_list_mark (outer : Nat) {m : Mark} (hm : ∀ c, m = .char c → isDefaultChar c = true)
    (hcomment : ∀ text onLine, m ≠ .filler (.comment text onLine))
    (h : m.isEmptyString = true → rest.head? ≠ some '"') :
    (Place.list outer).output (m.text .written ++ rest) = (Place.list outer).output rest := by
  cases m with
  | filler f =>
    cases f with
    | blank c isBlank =>
      exact Place.output_list_of_class (forall_mem_eq_false (by decide)) outer
        (List.forall_mem_singleton.2 isBlank) rest
    | comment text onLine => exact absurd rfl (hcomment text onLine)
  | char c =>
    exact Place.output_list_of_class (forall_mem_eq_false (by decide)) outer
      (List.forall_mem_singleton.2 (hm c rfl)) rest
  | literal l =>
    have hstring := Place.output_string (some outer) (l.afterOpening ++ rest)
    rw [afterString_literal l h] at hstring
    exact hstring

/-- So are the marks of a default value, one by one. -/
theorem output_list_marks (outer : Nat) : ∀ {marks : List Mark},
    (∀ c, Mark.char c ∈ marks → isDefaultChar c = true) →
    (∀ text onLine, Mark.filler (.comment text onLine) ∉ marks) →
    (marks.IsChain fun a b => a.isEmptyString = true → b.isLiteral = false) →
    (marks.getLast?.any Mark.isEmptyString = true → rest.head? ≠ some '"') →
    (Place.list outer).output (marks.flatMap (Mark.text .written) ++ rest) =
      (Place.list outer).output rest
  | [], _, _, _, _ => rfl
  | [m], allowed, noComment, _, ends => by
      rw [List.flatMap_cons, List.flatMap_nil, List.append_nil]
      exact output_list_mark outer (fun c hc => allowed c (by simp [hc]))
        (fun text onLine hf => noComment text onLine (by simp [hf])) (by simpa using ends)
  | m :: n :: marks, allowed, noComment, apart, ends => by
      rw [List.isChain_cons_cons] at apart
      rw [List.getLast?_cons_cons] at ends
      have ih := output_list_marks outer (fun c hc => allowed c (List.mem_cons_of_mem m hc))
        (fun text onLine hf => noComment text onLine (List.mem_cons_of_mem m hf)) apart.2 ends
      have hquote : m.isEmptyString = true →
          ((n :: marks).flatMap (Mark.text .written) ++ rest).head? ≠ some '"' := by
        intro he
        rw [List.flatMap_cons, List.append_assoc]
        exact head?_mark isTame_isDefaultChar (fun c hc => allowed c (by simp [hc])) (apart.1 he)
      rw [List.flatMap_cons, List.append_assoc, output_list_mark outer
        (fun c hc => allowed c (by simp [hc]))
        (fun text onLine hf => noComment text onLine (by simp [hf])) hquote, ih]

/-- In the argument list of a directive a default value without comments is passed over. -/
theorem output_list (outer : Nat) (hcomment : ¬ d.HasComment) (h : d.Fits rest) :
    (Place.list outer).output (d.text .written ++ rest) = (Place.list outer).output rest :=
  output_list_marks outer (fun _ => d.isDefaultChar_of_mem)
    (fun text onLine hf => hcomment ⟨text, onLine, hf⟩) d.isChain_marks
    (by rw [getLast?_marks]; exact h)

/-- Of a default value without an object, white space, its equals sign and characters of values are
left. -/
theorem isValueChar_of_mem (hobject : ¬ d.HasObject) {c : Char} (hc : c ∈ d.text .cleaned) :
    isBlank c = true ∨ c = '=' ∨ isValueChar c = true := by
  obtain ⟨m, hm, hc⟩ := List.mem_flatMap.1 hc
  cases m with
  | filler f => exact .inl (isBlank_of_mem_filler hc)
  | literal l =>
    rw [List.mem_singleton.1 hc]
    exact .inl (by decide)
  | char e =>
    rw [List.mem_singleton.1 hc]
    simp only [marks, List.mem_append, List.mem_map, List.mem_cons, Mark.char.injEq] at hm
    rcases hm with ⟨f, -, hf⟩ | rfl | ⟨f, -, hf⟩ | hm
    · cases hf
    · exact .inr (.inl rfl)
    · cases hf
    · exact .inr (.inr (d.isConstant.isValueChar_of_mem (by simp) hobject hm))

/-- The cleaned text begins with white space and the equals sign. -/
theorem text_cleaned (d : Default) :
    ∃ more, d.text .cleaned = d.before.text .cleaned ++ '=' :: more := by
  refine ⟨(d.behind.map Mark.filler ++ d.value).flatMap (Mark.text .cleaned), ?_⟩
  rw [text, marks, List.flatMap_append, List.flatMap_cons, List.flatMap_map]
  rfl

/-- **Of a default value with an object a brace is left, and the first one opens.**  So the first
brace behind the name of the field is not the one that ends its type. -/
theorem exists_opening (hobject : d.HasObject) :
    ∃ more, (d.text .cleaned).dropWhile isPlain = '\x7b' :: more := by
  have hgap : ∀ (gap : Gap), FirstOpens ((gap.map Mark.filler).flatMap (Mark.text .cleaned)) :=
    fun gap => firstOpens_of_isIgnored fun m hm => by
      obtain ⟨f, -, hf⟩ := List.mem_map.1 hm
      exact .inl ⟨f, hf.symm⟩
  have hequals : FirstOpens (Mark.text .cleaned (.char '=')) :=
    .inl (List.all_eq_true.1 (by decide))
  have hopens : FirstOpens (d.text .cleaned) := by
    rw [text, marks, List.flatMap_append, List.flatMap_cons, List.flatMap_append]
    exact (hgap d.before).append (hequals.append ((hgap d.behind).append d.isConstant.firstOpens))
  refine hopens.resolve_left fun hplain => absurd (hplain '\x7b' ?_) (by decide)
  refine List.mem_flatMap.2 ⟨.char '\x7b', ?_, List.mem_singleton_self _⟩
  exact List.mem_append_right _ (List.mem_cons_of_mem _ (List.mem_append_right _ hobject))

end Default

end SchemaAccess.Layout
