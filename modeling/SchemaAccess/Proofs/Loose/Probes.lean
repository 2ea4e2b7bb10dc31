import SchemaAccess.Proofs.Loose.Found
import SchemaAccess.Proofs.Loose.Places

/-!
# Telling places apart by what a schema declares

Two places are different if some text behind them makes a difference to what is declared.  The texts
for this close parentheses and then declare a name that occurs nowhere else.

* `freshName`, `declaration` — a long name and a block that declares it.
* `output_text_quiet` and its siblings — a text without marks changes no place.
* `output_closing` — parentheses that close an argument list or a part of it.
* `exists_of_step_lineFeed` — the places in which a line can begin.
* `Trail` — in an argument list the name of the directive is the last thing in the output.
-/

namespace SchemaAccess.Loose

open Text

/-! ## Declarations of a fresh name

To see that two places differ, a text is put behind them that declares something in one and not in
the other.  A name longer than anything in the schema cannot be declared there already. -/

def freshName (length : Nat) : List Char := List.replicate length 'x'

/-- A block without header and fields. -/
def declaration (keyword : Keyword) (name : List Char) : List Char :=
  keywordText keyword ++ ' ' :: (name ++ ['\x7b', '\x7d'])

theorem isName_freshName (n : Nat) : IsName (freshName (n + 1)) :=
  ⟨by decide, fun c hc => by rw [List.eq_of_mem_replicate hc]; decide⟩

section Declares

variable {keyword : Keyword} {name : List Char}

/-- A keyword, a name and an empty body declare the name. -/
theorem declares_keyword (blank : List Char) (hn : IsName name) (hne : blank ≠ [])
    (hblank : ∀ c ∈ blank, isBlank c = true) :
    Declares keyword name (keywordText keyword ++ (blank ++ (name ++ ['\x7b', '\x7d']))) := by
  have hblock : block? (keywordText keyword ++ (blank ++ (name ++ ['\x7b', '\x7d']))) =
      some (⟨keyword, name, [], []⟩, []) :=
    @block?_append _ blank name [] [] [] keyword (keyword?_append keyword) hne hblank hn
      (stops_cons (by decide) _) (by simp) (by simp)
  refine ⟨⟨keyword, name, [], []⟩, ?_, rfl, rfl⟩
  rw [blocks, blocksFrom_of_some hblock]
  exact List.mem_cons_self

theorem declares_declaration (hn : IsName name) :
    Declares keyword name (declaration keyword name) :=
  declares_keyword [' '] hn (by simp) (List.all_eq_true.1 (by decide))

/-- A block may begin behind a character that is not part of a word, for a keyword must begin at a
word boundary. -/
theorem Declares.cons {s : List Char} (h : Declares keyword name s) {c : Char}
    (hc : isWord c = false) : Declares keyword name (c :: s) := by
  obtain ⟨block, hblock, hkeyword⟩ := h
  refine ⟨block, ?_, hkeyword⟩
  rwa [blocks, blocksFrom_of_none (.inr (block?_eq_none hc s)), hc]

end Declares

/-! ## Texts without marks

A declaration has no quotes, number signs, at signs or parentheses.  Such a text changes no place;
in the text it is copied, and in an argument list it is left out. -/

/-- True of the characters of names, spaces and braces. -/
def isQuiet (c : Char) : Bool := isNameChar c || c == ' ' || c == '\x7b' || c == '\x7d'

theorem isQuiet_of_mem_declaration {keyword : Keyword} {name : List Char} (hn : IsName name)
    {c : Char} (hc : c ∈ declaration keyword name) : isQuiet c = true := by
  simp only [declaration, List.mem_append, List.mem_cons, List.not_mem_nil, or_false] at hc
  rcases hc with hc | rfl | hc | rfl | rfl
  · rw [isQuiet, isNameChar_of_mem (isName_keyword keyword) hc]
    rfl
  · decide
  · rw [isQuiet, isNameChar_of_mem hn hc]
    rfl
  · decide
  · decide

namespace Place

variable {s : List Char}

/-- In the text it is all copied. -/
theorem output_text_quiet (h : ∀ c ∈ s, isQuiet c = true) : text.output s = s := by
  induction s with
  | nil => rfl
  | cons c s ih =>
    have hc := h c List.mem_cons_self
    rw [output_cons, step, stepText, if_neg (ne_of_class hc (by decide)),
      if_neg (ne_of_class hc (by decide)), if_neg (ne_of_class hc (by decide)),
      ih fun d hd => h d (List.mem_cons_of_mem c hd)]
    rfl

/-- In an argument list all of it is left out. -/
theorem output_list_quiet (outer : Nat) (h : ∀ c ∈ s, isQuiet c = true) :
    (list outer).output s = [] := by
  have hpassed := output_list_of_class (forall_mem_eq_false (by decide)) outer h []
  rwa [List.append_nil] at hpassed

/-! ## Closing parentheses

A probe for an argument list begins with the parentheses that close it.  With too few of them the
declaration behind is still in the list, so the number of open parentheses shows in what is
declared. -/

/-- Parentheses close as many lists inside as there are of them. -/
theorem output_closing_inner (outer closing : Nat) (s : List Char) :
    (list (outer + closing)).output (List.replicate closing ')' ++ s) = (list outer).output s := by
  induction closing with
  | zero => rfl
  | succ closing ih => exact ih

/-- Enough parentheses close an argument list. -/
theorem output_closing (outer : Nat) (s : List Char) :
    (list outer).output (List.replicate (outer + 1) ')' ++ s) = text.output s := by
  induction outer with
  | zero => rfl
  | succ outer ih => exact ih

/-! ## Places at the beginning of a line

A probe is put on a line of its own, so only the places in which a line can begin have to be
told apart.  These are the text, the gap behind a directive, an argument list, and a string
that goes on. -/

/-- In a string that goes on behind a line feed nothing but a quote or a backslash matters. -/
def Open (quote : Quote) : Prop := quote = .inside ∨ quote = .block 0

/-- In a string that goes on, nothing is copied until a quote ends it. -/
theorem output_string_of_open {around : Option Nat} {quote : Quote} (h : Open quote)
    (hs : ∀ c ∈ s, c ≠ '"' ∧ c ≠ '\n' ∧ c ≠ '\\') : (string around quote).output s = [] := by
  induction s with
  | nil => rfl
  | cons c s ih =>
    obtain ⟨hquote, hfeed, hbackslash⟩ := hs c List.mem_cons_self
    have hstep : (string around quote).step c = (.string around quote, []) := by
      rcases h with rfl | rfl
      · rw [step, stepString, stepQuoted, if_neg hquote, if_neg hfeed, if_neg hbackslash]
      · rw [step, stepString, if_neg hquote]
    rw [output_cons, hstep, ih fun d hd => hs d (List.mem_cons_of_mem c hd)]
    rfl

/-- The places in which a line can begin: a comment ends with its line, and so does the name of a
directive, and a quoted string unless the line feed is escaped. -/
theorem exists_of_step_lineFeed (p : Place) :
    (p.step '\n').1 = text ∨ (p.step '\n').1 = gap ∨ (∃ outer, (p.step '\n').1 = list outer) ∨
      ∃ around quote, Open quote ∧ (p.step '\n').1 = string around quote := by
  have hbehind : ∀ around : Option Nat, (stepBehind around '\n').1 = text ∨
      ∃ outer, (stepBehind around '\n').1 = list outer := by
    intro around
    cases around with
    | none => exact .inl rfl
    | some outer => exact .inr ⟨outer, rfl⟩
  cases p with
  | text => exact .inl rfl
  | comment => exact .inl rfl
  | name => exact .inr (.inl rfl)
  | gap => exact .inr (.inl rfl)
  | list outer => exact .inr (.inr (.inl ⟨outer, rfl⟩))
  | string around quote =>
    cases quote with
    | escaped => exact .inr (.inr (.inr ⟨around, .inside, .inl rfl, rfl⟩))
    | block quotes => exact .inr (.inr (.inr ⟨around, .block 0, .inr rfl, rfl⟩))
    | _ => exact (hbehind around).imp_right fun h => .inr (.inl h)

/-! ## Names at the end of the output

What stands in front of a comment decides whether it is seen.  In an argument list the last thing
that was put out is the name of the directive, and this section follows that fact through every
step. -/

/-- The text ends with the name of a directive and white space behind it. -/
structure EndsWithName (word blank out : List Char) : Prop where
  exists_front : ∃ front, front ++ '@' :: word ++ blank = out
  isDirectiveChar : ∀ c ∈ word, isDirectiveChar c = true
  isBlank : ∀ c ∈ blank, isBlank c = true

theorem EndsWithName.append {word blank out : List Char} (h : EndsWithName word blank out)
    {c : Char} (hc : Text.isBlank c = true) : EndsWithName word (blank ++ [c]) (out ++ [c]) := by
  obtain ⟨⟨front, hfront⟩, hword, hblank⟩ := h
  refine ⟨⟨front, by rw [← hfront, List.append_assoc (front ++ _)]⟩, hword, ?_⟩
  intro d hd
  rcases List.mem_append.1 hd with hd | hd
  · exact hblank d hd
  · rwa [List.mem_singleton.1 hd]

/-- What the place behind a text says about the end of the output, for a text that begins in an
argument list. -/
def Trail : Place → List Char → Prop
  | .name, out => ∃ word, EndsWithName word [] out
  | .gap, out => ∃ word blank, EndsWithName word blank out
  | .list _, out | .string (some _) _, out =>
    out = [] ∨ ∃ word blank, EndsWithName word blank out
  | _, _ => True

/-- In the text, a character that begins the name of a directive puts out its at sign. -/
theorem trail_stepText (c : Char) (out : List Char) :
    Trail (stepText c).1 (out ++ (stepText c).2) := by
  rw [stepText]
  split
  · trivial
  · split
    · trivial
    · split
      · exact ⟨[], ⟨out, by simp⟩, by simp, by simp⟩
      · trivial

/-- Behind the name, white space is put out until the list opens or something else comes. -/
theorem trail_stepGap {word blank out : List Char} (h : EndsWithName word blank out) (c : Char) :
    Trail (stepGap c).1 (out ++ (stepGap c).2) := by
  rw [stepGap]
  split
  · next hc => exact ⟨word, _, h.append hc⟩
  · split
    · exact .inr ⟨word, _, h.append (by decide)⟩
    · exact trail_stepText c out

/-- In the list nothing is put out, so the end of the output stays. -/
theorem trail_stepList {outer : Nat} {out : List Char} (h : Trail (list outer) out) (c : Char) :
    Trail (stepList outer c).1 (out ++ (stepList outer c).2) := by
  rw [stepList]
  split
  · rw [List.append_nil]
    exact h
  · split
    · rw [List.append_nil]
      exact h
    · split
      · rw [List.append_nil]
        cases outer with
        | zero => trivial
        | succ outer => exact h
      · rw [List.append_nil]
        exact h

/-- A string in the list has the same end of the output as the place around it. -/
theorem trail_string (around : Option Nat) (quote : Quote) (out : List Char) :
    Trail (string around quote) out ↔ Trail (behind around) out := by
  cases around <;> rfl

theorem trail_stepBehind {around : Option Nat} {out : List Char} (h : Trail (behind around) out)
    (c : Char) : Trail (stepBehind around c).1 (out ++ (stepBehind around c).2) := by
  cases around with
  | none => exact trail_stepText c out
  | some outer => exact trail_stepList h c

theorem trail_stepString {around : Option Nat} {out : List Char} (h : Trail (behind around) out)
    (quote : Quote) (c : Char) :
    Trail (stepString around quote c).1 (out ++ (stepString around quote c).2) := by
  have hstay : ∀ quote, Trail (string around quote) (out ++ []) := fun quote => by
    rw [List.append_nil]
    exact (trail_string around quote out).2 h
  have hleave : Trail (behind around) (out ++ []) := by
    rw [List.append_nil]
    exact h
  have hquoted : Trail (stepQuoted around c).1 (out ++ (stepQuoted around c).2) := by
    rw [stepQuoted]
    split
    · exact hleave
    · split
      · exact trail_stepBehind h '\n'
      · split
        · exact hstay _
        · exact hstay _
  cases quote with
  | opened =>
    rw [stepString]
    split
    · exact hstay _
    · exact hquoted
  | twice =>
    rw [stepString]
    split
    · exact hstay _
    · exact trail_stepBehind h c
  | inside => exact hquoted
  | escaped => exact hstay _
  | block quotes =>
    rw [stepString]
    split
    · split
      · exact hleave
      · exact hstay _
    · exact hstay _

/-- One character keeps what is known about the end of the output. -/
theorem trail_step {p : Place} {out : List Char} (h : Trail p out) (c : Char) :
    Trail (p.step c).1 (out ++ (p.step c).2) := by
  cases p with
  | text => exact trail_stepText c out
  | comment =>
    rw [step]
    split <;> trivial
  | name =>
    obtain ⟨word, hends⟩ := h
    rw [step]
    split
    · next hc =>
      obtain ⟨⟨front, hfront⟩, hword, -⟩ := hends
      refine ⟨word ++ [c], ⟨front, by rw [← hfront]; simp⟩, ?_, by simp⟩
      intro d hd
      rcases List.mem_append.1 hd with hd | hd
      · exact hword d hd
      · rwa [List.mem_singleton.1 hd]
    · exact trail_stepGap hends c
  | gap =>
    obtain ⟨word, blank, hends⟩ := h
    exact trail_stepGap hends c
  | list outer => exact trail_stepList h c
  | string around quote => exact trail_stepString ((trail_string around quote out).1 h) quote c

/-- **A text keeps what is known about the end of the output**, by induction on its characters with
`trail_step`. -/
theorem trail_after {p : Place} {out : List Char} (h : Trail p out) (s : List Char) :
    Trail (p.after s) (out ++ p.output s) := by
  induction s generalizing p out with
  | nil =>
    rw [output, List.append_nil]
    exact h
  | cons c s ih =>
    rw [after_cons, output_cons, ← List.append_assoc]
    exact ih (trail_step h c)

end Place

end SchemaAccess.Loose
