import SchemaAccess.Proofs.Text.Classes

/-!
# What cleaning does to the front of a text

Cleaning looks at the first character and decides what to pass over.  There is one law for each
kind of first character, so that no proof about cleaned texts has to open its definition.

* `clean_char`, `clean_append` — ordinary characters stay.
* `clean_comment` — a comment goes up to its line feed.
* `clean_quote` — a string leaves a space.
* `clean_at`, `clean_at_list` — a directive keeps its name and loses its arguments.
-/

namespace SchemaAccess.Loose

open Text

/-! ## First characters -/

/-- True of a character at which cleaning passes over nothing. -/
def isOrdinary (c : Char) : Bool := c != '#' && c != '"' && c != '@'

theorem isOrdinary_iff {c : Char} : isOrdinary c = true ↔ c ≠ '#' ∧ c ≠ '"' ∧ c ≠ '@' := by
  simp only [isOrdinary, Bool.and_eq_true, bne_iff_ne, ne_eq, and_assoc]

/-- The characters of a class without marks are ordinary. -/
theorem isOrdinary_of_class {p : Char → Bool} (hp : ∀ mark ∈ ['#', '"', '@'], p mark = false)
    {c : Char} (hc : p c = true) : isOrdinary c = true :=
  isOrdinary_iff.2 ⟨ne_of_class hc (hp '#' (by simp)), ne_of_class hc (hp '"' (by simp)),
    ne_of_class hc (hp '@' (by simp))⟩

@[simp]
theorem clean_nil : clean [] = [] := by rw [clean]

/-- An ordinary character is copied. -/
theorem clean_char {c : Char} (h : isOrdinary c = true) (rest : List Char) :
    clean (c :: rest) = c :: clean rest := by
  obtain ⟨hhash, hquote, hat⟩ := isOrdinary_iff.1 h
  rw [clean]
  · exact hhash
  · exact hquote
  · exact hat

/-- So is a text of ordinary characters in front of another. -/
theorem clean_append {s : List Char} (h : ∀ c ∈ s, isOrdinary c = true) (rest : List Char) :
    clean (s ++ rest) = s ++ clean rest := by
  induction s with
  | nil => rfl
  | cons c cs ih =>
    rw [List.cons_append, clean_char (h c List.mem_cons_self),
      ih fun d hd => h d (List.mem_cons_of_mem c hd), List.cons_append]

theorem clean_eq_self {s : List Char} (h : ∀ c ∈ s, isOrdinary c = true) : clean s = s := by
  have hclean := clean_append h []
  rwa [List.append_nil, clean_nil, List.append_nil] at hclean

theorem clean_closing : clean ['\x7d'] = ['\x7d'] :=
  clean_eq_self (List.all_eq_true.1 (by decide))

theorem isOrdinary_of_isBlank {c : Char} (h : isBlank c = true) : isOrdinary c = true :=
  isOrdinary_of_class (forall_mem_eq_false (by decide)) h

/-- White space stays. -/
theorem clean_blanks {s : List Char} (h : ∀ c ∈ s, isBlank c = true) : clean s = s :=
  clean_eq_self fun c hc => isOrdinary_of_isBlank (h c hc)

/-- A number sign begins a comment, of which the line feed is left. -/
theorem clean_hash (rest : List Char) :
    clean ('#' :: rest) = clean (rest.dropWhile (· ≠ '\n')) := by rw [clean]

/-- A quote begins a string, and a space takes its place. -/
theorem clean_quote (rest : List Char) :
    clean ('"' :: rest) = ' ' :: clean (afterString rest) := by rw [clean]

/-- A text without line feed is passed over together with the hash before it. -/
theorem dropWhile_onLine {text : List Char} (h : '\n' ∉ text) (rest : List Char) :
    (text ++ rest).dropWhile (· ≠ '\n') = rest.dropWhile (· ≠ '\n') := by
  refine List.dropWhile_append_of_pos fun c hc => ?_
  rw [decide_eq_true_eq]
  rintro rfl
  exact h hc

/-- Of a comment the line feed stays. -/
theorem clean_comment {text : List Char} (h : '\n' ∉ text) (rest : List Char) :
    clean ('#' :: text ++ '\n' :: rest) = '\n' :: clean rest := by
  rw [List.cons_append, clean_hash, dropWhile_onLine h, List.dropWhile_cons_of_neg (by simp),
    clean_char (by decide)]

/-- Of a comment that is not ended nothing stays. -/
theorem clean_lastComment {text : List Char} (h : '\n' ∉ text) : clean ('#' :: text) = [] := by
  have := dropWhile_onLine h []
  rw [List.append_nil] at this
  rw [clean_hash, this, List.dropWhile_nil, clean_nil]

/-! ## Strings and argument lists

The skips are told by what they find at the front.  For an argument list this is a parenthesis, with
white space before it or without; `NoList` says that there is none. -/

/-- A block string goes on where there are not three quotes. -/
theorem afterBlock_cons {c : Char} {rest : List Char} (h : ¬ ['"', '"', '"'] <+: c :: rest) :
    afterBlock (c :: rest) = afterBlock rest := by
  rw [afterBlock]
  rintro rest rfl rfl
  exact h (List.prefix_append ['"', '"', '"'] rest)

/-- A string that does not begin with two more quotes is no block string. -/
theorem afterString_of_not_block {s : List Char} (h : ¬ ['"', '"'] <+: s) :
    afterString s = afterQuoted s := by
  rw [afterString]
  rintro rest rfl
  exact h (List.prefix_append ['"', '"'] rest)

/-- No argument list follows, not even after white space. -/
def NoList (rest : List Char) : Prop := (rest.dropWhile isBlank).head? ≠ some '('

theorem NoList.afterArguments? {rest : List Char} (h : NoList rest) :
    Loose.afterArguments? rest = none := by
  rw [Loose.afterArguments?]
  split
  · next hd => rw [NoList, hd] at h; exact absurd rfl h
  · rfl

theorem NoList.cons {c : Char} (hb : isBlank c = false) (hp : c ≠ '(') (rest : List Char) :
    NoList (c :: rest) := by
  rw [NoList, List.dropWhile_cons_of_neg (by simp [hb])]
  simpa using hp

/-- White space in front makes no list. -/
theorem NoList.blank {c : Char} (hb : isBlank c = true) {rest : List Char} (h : NoList rest) :
    NoList (c :: rest) := by
  rw [NoList, List.dropWhile_cons_of_pos hb]
  exact h

/-- An argument list is passed over together with the white space before it. -/
theorem afterArguments?_of_blanks {blanks : List Char} (h : ∀ c ∈ blanks, isBlank c = true)
    (inner : List Char) : afterArguments? (blanks ++ '(' :: inner) = some (afterGroup 0 inner) := by
  rw [afterArguments?, dropWhile_append_of_stops h (stops_cons (by decide) inner)]
  rfl

/-- An argument list that is passed over begins with a parenthesis. -/
theorem dropWhile_of_afterArguments? {s rest : List Char} (h : afterArguments? s = some rest) :
    ∃ inner, s.dropWhile isBlank = '(' :: inner ∧ rest = afterGroup 0 inner := by
  rw [afterArguments?] at h
  split at h
  · next inner hs => exact ⟨inner, hs, (Option.some.inj h).symm⟩
  · cases h

/-- If nothing is passed over, no list follows. -/
theorem noList_of_afterArguments? {s : List Char} (h : afterArguments? s = none) : NoList s := by
  intro hs
  rw [afterArguments?] at h
  cases hd : s.dropWhile isBlank with
  | nil => rw [hd] at hs; cases hs
  | cons c rest =>
    rw [hd, List.head?_cons, Option.some.injEq] at hs
    rw [hd, hs] at h
    cases h

/-! ## Directives

Behind an at sign there may be any number of name characters, also none.  The laws are stated for
that general case first and for names then. -/

/-- A name character may stand in the name of a directive; the other direction fails for letters
beyond ASCII. -/
theorem isDirectiveChar_of_isNameChar {c : Char} (h : isNameChar c = true) :
    isDirectiveChar c = true := by
  rw [isNameChar, Bool.or_eq_true] at h
  rw [isDirectiveChar, Bool.or_eq_true]
  refine h.imp_left fun h => ?_
  have hc : c.toNat < 0x80 := by
    rcases Bool.or_eq_true_iff.1 h with h | h
    · have := toNat_of_isAlpha h
      omega
    · have := toNat_of_isDigit h
      omega
  rw [isAlphanumeric, if_pos hc]
  exact h

theorem isDirectiveChar_of_mem {name : List Char} (h : IsName name) :
    ∀ c ∈ name, isDirectiveChar c = true := fun _ hc =>
  isDirectiveChar_of_isNameChar (isNameChar_of_mem h hc)

section At

variable {name rest after : List Char}

/-- Behind an at sign characters of a name stay, and what follows is cleaned unless it is an
argument list. -/
theorem clean_at (hn : ∀ c ∈ name, isDirectiveChar c = true) (hr : Stops isDirectiveChar rest)
    (ha : afterArguments? rest = none) :
    clean ('@' :: name ++ rest) = '@' :: name ++ clean rest := by
  have hd := dropWhile_append_of_stops hn hr
  rw [List.cons_append, clean, takeWhile_append_of_stops hn hr]
  split
  · next h => rw [hd, ha] at h; cases h
  · rw [hd, List.cons_append]

/-- Behind an at sign and characters of a name an argument list leaves a space. -/
theorem clean_at_list (hn : ∀ c ∈ name, isDirectiveChar c = true) (hr : Stops isDirectiveChar rest)
    (ha : afterArguments? rest = some after) :
    clean ('@' :: name ++ rest) = '@' :: name ++ ' ' :: clean after := by
  have hd := dropWhile_append_of_stops hn hr
  rw [List.cons_append, clean, takeWhile_append_of_stops hn hr]
  split
  · next h => rw [hd, ha] at h; cases h; rw [List.cons_append]
  · next h => rw [hd, ha] at h; cases h

/-- A directive without arguments stays. -/
theorem clean_directive (hn : IsName name) (hr : Stops isDirectiveChar rest)
    (ha : afterArguments? rest = none) : clean ('@' :: name ++ rest) = '@' :: name ++ clean rest :=
  clean_at (isDirectiveChar_of_mem hn) hr ha

/-- Of a directive with arguments the name stays, with a space behind it. -/
theorem clean_directive_list (hn : IsName name) (hr : Stops isDirectiveChar rest)
    (ha : afterArguments? rest = some after) :
    clean ('@' :: name ++ rest) = '@' :: name ++ ' ' :: clean after :=
  clean_at_list (isDirectiveChar_of_mem hn) hr ha

end At

end SchemaAccess.Loose
