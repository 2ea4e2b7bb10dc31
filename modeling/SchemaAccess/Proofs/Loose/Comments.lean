import SchemaAccess.Proofs.Loose.Probes
import SchemaAccess.Proofs.Loose.Squeezing

/-!
# Where a comment is invisible

A comment may be written before any line feed that is not in a string.  Outside of directives it is
passed over.  Behind the name of a directive it hides the argument list that follows, and in an
argument list it is read like the rest of the list, so its parentheses and quotes count.

* `Invisible` — the schema declares the same with the comment and without.
* `Place.Tolerates` — what a place asks of a comment and of the text after it.
* `invisible_of_tolerates` — a tolerated comment is invisible, since it leaves nothing but white
  space.
* `eq_of_alike` — a line that is not tolerated in an argument list can be told from one that is.
* `invisible_iff_tolerates` — the tolerated comments are exactly the invisible ones.
-/

namespace SchemaAccess.Loose

open Text

/-! ## Places before a line feed -/

namespace Place

/-- The place before a line feed: two quotes with a line feed behind them are an empty string. -/
def settled : Place → Place
  | string around .twice => behind around
  | p => p

def isInString : Place → Bool
  | string _ _ => true
  | _ => false

/-- What a place before a line feed asks of a comment there and of the text behind the line feed:
behind the name of a directive no argument list may follow, and in an argument list the comment
must leave the list as it is when it is read like the rest of the list. -/
def Tolerates (comment after : List Char) : Place → Prop
  | .text | .comment => True
  | .name | .gap => NoList after
  | .list outer =>
    (list outer).output (comment ++ ['\n']) = [] ∧
      (list outer).after (comment ++ ['\n']) = list outer
  | .string _ _ => False

/-- Only a quote tells a settled place from the place itself. -/
theorem output_settled (p : Place) {c : Char} (hc : c ≠ '"') (s : List Char) :
    p.settled.output (c :: s) = p.output (c :: s) := by
  cases p with
  | string around quote =>
    cases quote with
    | twice =>
      rw [settled, output_cons, output_cons, step_behind, step, stepString, if_neg hc]
    | _ => rfl
  | _ => rfl

end Place

/-- The place behind a text, before a line feed. -/
def placeBehind (before : List Char) : Place := (Place.text.after before).settled

/-! ## Schemas with a comment -/

/-- A schema with a comment at the end of a line. -/
def commented (before comment after : List Char) : String :=
  String.ofList (before ++ ' ' :: '#' :: (comment ++ '\n' :: after))

def plain (before after : List Char) : String := String.ofList (before ++ '\n' :: after)

/-- A schema declares the same with the comment and without, as a source schema and as a build
schema, whatever the other schema is. -/
def Invisible (before comment after : List Char) : Prop :=
  ∀ other : String,
    view (commented before comment after) other = view (plain before after) other ∧
      view other (commented before comment after) = view other (plain before after)

section Invisible

variable {before comment after : List Char}

theorem output_comment_lineFeed (hc : '\n' ∉ comment) :
    Place.comment.output (comment ++ '\n' :: after) = '\n' :: Place.text.output after := by
  rw [Place.output_comment, dropWhile_onLine hc]
  rfl

/-- Behind a comment the name of a directive has no argument list. -/
theorem output_gap_comment (hc : '\n' ∉ comment) {p : Place} (hp : p = .name ∨ p = .gap) :
    p.output (' ' :: '#' :: (comment ++ '\n' :: after)) =
      ' ' :: '\n' :: Place.text.output after := by
  rcases hp with rfl | rfl
  · exact congrArg (' ' :: ·) (output_comment_lineFeed hc)
  · exact congrArg (' ' :: ·) (output_comment_lineFeed hc)

theorem output_gap_lineFeed {p : Place} (hp : p = .name ∨ p = .gap) :
    p.output ('\n' :: after) = '\n' :: Place.gap.output after := by
  rcases hp with rfl | rfl <;> rfl

/-- In an argument list the sign that begins a comment has no meaning. -/
theorem output_list_comment (outer : Nat) :
    (Place.list outer).output (' ' :: '#' :: (comment ++ '\n' :: after)) =
      (Place.list outer).output (comment ++ ['\n']) ++
        ((Place.list outer).after (comment ++ ['\n'])).output after := by
  rw [← Place.output_append, List.append_assoc]
  rfl

/-- What a tolerated comment leaves is white space before the line feed. -/
theorem squeeze_output_comment (hc : '\n' ∉ comment) {p : Place}
    (h : p.Tolerates comment after) :
    squeeze (p.output (' ' :: '#' :: (comment ++ '\n' :: after))) =
      squeeze (p.output ('\n' :: after)) := by
  have hblank : squeeze (' ' :: '\n' :: Place.text.output after) =
      squeeze ('\n' :: Place.text.output after) := by
    have hspace : ∀ c ∈ [' '], isBlank c = true := List.all_eq_true.1 (by decide)
    exact squeeze_append_blanks hspace (by decide) []
  cases p with
  | text => exact (congrArg _ (congrArg (' ' :: ·) (output_comment_lineFeed hc))).trans hblank
  | comment => exact congrArg squeeze (output_comment_lineFeed hc)
  | name =>
    rw [output_gap_comment hc (.inl rfl), output_gap_lineFeed (.inl rfl), Place.output_gap h]
    exact hblank
  | gap =>
    rw [output_gap_comment hc (.inr rfl), output_gap_lineFeed (.inr rfl), Place.output_gap h]
    exact hblank
  | list outer =>
    rw [output_list_comment, h.1, h.2]
    rfl
  | string around quote => exact h.elim

/-- A tolerated comment is invisible. -/
theorem invisible_of_tolerates (hc : '\n' ∉ comment)
    (h : (placeBehind before).Tolerates comment after) : Invisible before comment after := by
  have hsqueeze : squeeze (clean (commented before comment after).toList) =
      squeeze (clean (plain before after).toList) := by
    rw [squeeze_clean, squeeze_clean, commented, plain, String.toList_ofList, String.toList_ofList,
      Place.output_append, Place.output_append]
    refine squeeze_append_congr _ ?_
    have hplace := squeeze_output_comment hc h
    rwa [placeBehind, Place.output_settled _ (by decide),
      Place.output_settled _ (by decide)] at hplace
  exact fun other => ⟨view_eq_of_squeeze hsqueeze rfl, view_eq_of_squeeze rfl hsqueeze⟩

/-! ## Declarations that show a comment -/

theorem declares_squeeze (keyword : Keyword) (name text : List Char) :
    Declares keyword name (squeeze text) ↔ Declares keyword name text := by
  simp only [Declares, blocks_squeeze, List.mem_map, exists_exists_and_eq_and]
  rfl

theorem declares_clean (keyword : Keyword) (name s : List Char) :
    Declares keyword name (clean s) ↔ Declares keyword name (Place.text.output s) := by
  rw [← declares_squeeze, squeeze_clean, declares_squeeze]

/-- A type of a name is declared if the fields of the name are. -/
theorem declares_type_iff (source build : String) (name : List Char) :
    Declares .type name (clean build.toList) ↔
      ∃ list, (view source build).fields (String.ofList name) = .ok list := by
  have hfound : (fieldsOf? (clean build.toList) (String.ofList name)).isSome = true ↔
      Declares .type name (clean build.toList) := by
    rw [fieldsOf?, Option.isSome_map, List.find?_isSome]
    simp only [Declares, Bool.and_eq_true, decide_eq_true_eq, String.ofList_inj]
  rw [← hfound]
  simp only [view]
  cases fieldsOf? (clean build.toList) (String.ofList name) with
  | none => simp
  | some list => simp

theorem declares_input_iff (source build : String) (name : List Char) :
    Declares .input name (clean build.toList) ↔
      ∃ list, (view source build).inputs = .ok list ∧
        ∃ declaration ∈ list, declaration.name = String.ofList name := by
  simp only [view, inputs, Declares, Except.ok.injEq, exists_eq_left', List.mem_map,
    List.mem_filter, decide_eq_true_eq]
  constructor
  · rintro ⟨block, hblock, hkeyword, rfl⟩
    exact ⟨_, ⟨block, ⟨hblock, hkeyword⟩, rfl⟩, rfl⟩
  · rintro ⟨_, ⟨block, ⟨hblock, hkeyword⟩, rfl⟩, hname⟩
    exact ⟨block, hblock, hkeyword, String.ofList_inj.1 hname⟩

/-- An invisible comment changes neither the types nor the inputs that are declared. -/
theorem Invisible.declares_iff (h : Invisible before comment after) {keyword : Keyword}
    (hkeyword : keyword = .type ∨ keyword = .input) (name : List Char) :
    Declares keyword name
        (Place.text.output (before ++ ' ' :: '#' :: (comment ++ '\n' :: after))) ↔
      Declares keyword name (Place.text.output (before ++ '\n' :: after)) := by
  have hview := (h "").2
  have hcommented : (commented before comment after).toList =
      before ++ ' ' :: '#' :: (comment ++ '\n' :: after) := String.toList_ofList
  have hplain : (plain before after).toList = before ++ '\n' :: after := String.toList_ofList
  rw [← declares_clean, ← declares_clean, ← hcommented, ← hplain]
  rcases hkeyword with rfl | rfl
  · rw [declares_type_iff "", declares_type_iff "", hview]
  · rw [declares_input_iff "", declares_input_iff "", hview]

end Invisible

/-! ## Argument lists -/

/-- The output for a directive whose name is a keyword and whose argument list has begun. -/
def mark (keyword : Keyword) : List Char := '@' :: keywordText keyword ++ [' ']

/-- A directive whose name is a keyword and whose argument list has begun. -/
def opening (keyword : Keyword) (outer : Nat) : List Char :=
  '@' :: keywordText keyword ++ '(' :: List.replicate outer '('

theorem opening_eq (keyword : Keyword) (outer : Nat) :
    opening keyword outer = '@' :: keywordText keyword ++ ['('] ++ List.replicate outer '(' := by
  rw [List.append_assoc]
  rfl

theorem after_parenthesis (keyword : Keyword) :
    Place.text.after ('@' :: keywordText keyword ++ ['(']) = .list 0 := by
  cases keyword <;> rfl

theorem after_opening (keyword : Keyword) (outer : Nat) :
    Place.text.after (opening keyword outer) = .list outer := by
  have hinner : ∀ n, (Place.list n).after (List.replicate outer '(') = .list (n + outer) := by
    induction outer with
    | zero => exact fun n => rfl
    | succ outer ih =>
      intro n
      rw [List.replicate_succ, Place.after_cons]
      refine (ih (n + 1)).trans ?_
      rw [Nat.add_right_comm]
      rfl
  rw [opening_eq, Place.after_append, after_parenthesis, hinner, Nat.zero_add]

theorem output_opening (keyword : Keyword) (outer : Nat) :
    Place.text.output (opening keyword outer) = mark keyword := by
  have hinner : ∀ n, (Place.list n).output (List.replicate outer '(') = [] := by
    induction outer with
    | zero => exact fun n => rfl
    | succ outer ih => exact fun n => ih (n + 1)
  have hmark : Place.text.output ('@' :: keywordText keyword ++ ['(']) = mark keyword := by
    cases keyword <;> rfl
  rw [opening_eq, Place.output_append, hmark, after_parenthesis, hinner, List.append_nil]

/-- A place with an output before it declares the same as an argument list does, whatever text
follows. -/
def Alike (outer : Nat) (out : List Char) (q : Place) : Prop :=
  ∀ keyword, keyword = .type ∨ keyword = .input → ∀ name after,
    (Declares keyword name (mark keyword ++ (out ++ q.output after)) ↔
      Declares keyword name (mark keyword ++ (Place.list outer).output after))

theorem alike_of_invisible {outer : Nat} {comment : List Char}
    (h : ∀ before after, placeBehind before = .list outer → Invisible before comment after) :
    Alike outer ((Place.list outer).output (comment ++ ['\n']))
      ((Place.list outer).after (comment ++ ['\n'])) := by
  intro keyword hkeyword name after
  have hplace : placeBehind (opening keyword outer) = .list outer := by
    rw [placeBehind, after_opening]
    rfl
  have hiff := (h _ after hplace).declares_iff hkeyword name
  rw [Place.output_append, Place.output_append, after_opening, output_opening,
    output_list_comment] at hiff
  exact hiff

section Alike

variable {outer : Nat} {out : List Char} {q : Place}

/-- A declaration behind a closing brace is a text without marks. -/
theorem isQuiet_of_mem_closed {keyword : Keyword} (n : Nat) {c : Char}
    (hc : c ∈ '\x7d' :: declaration keyword (freshName (n + 1))) : isQuiet c = true := by
  rcases List.mem_cons.1 hc with rfl | hc
  · decide
  · exact isQuiet_of_mem_declaration (isName_freshName n) hc

/-- Behind parentheses that end the place and not the list, a declaration is seen in one only. -/
theorem not_alike_of_earlier (closing : List Char)
    (hq : ∀ s, (∀ c ∈ s, isQuiet c = true) → q.output (closing ++ '\x7d' :: s) = '\x7d' :: s)
    (hlist : ∀ s, (∀ c ∈ s, isQuiet c = true) → (Place.list outer).output (closing ++ s) = []) :
    ¬ Alike outer out q := by
  intro h
  -- the name is longer than what stands before it without the comment
  have hiff := h .type (.inl rfl) (freshName 7)
    (closing ++ '\x7d' :: declaration .type (freshName 7))
  rw [hq _ fun c hc => isQuiet_of_mem_declaration (isName_freshName 6) hc,
    hlist _ fun c hc => isQuiet_of_mem_closed 6 hc, ← List.append_assoc] at hiff
  have hshort := (hiff.1 ((declares_declaration (isName_freshName 6)).append _)).length_le
  exact absurd hshort (by decide)

/-- Behind parentheses that end the list and not the place, a declaration is seen in one only. -/
theorem not_alike_of_later (closing : List Char)
    (hq : ∀ s, (∀ c ∈ s, isQuiet c = true) → q.output (closing ++ s) = [])
    (hlist : ∀ s, (∀ c ∈ s, isQuiet c = true) →
      (Place.list outer).output (closing ++ s) = s) :
    ¬ Alike outer out q := by
  intro h
  -- the name is longer than what stands before it with the comment
  let length := (mark .type ++ out).length
  have hiff := h .type (.inl rfl) (freshName (length + 1))
    (closing ++ '\x7d' :: declaration .type (freshName (length + 1)))
  rw [hq _ fun c hc => isQuiet_of_mem_closed length hc,
    hlist _ fun c hc => isQuiet_of_mem_closed length hc, List.append_nil] at hiff
  have hlong := (hiff.2 ((declares_declaration (isName_freshName length)).append _)).length_le
  rw [freshName, List.length_replicate] at hlong
  omega

/-- A word does not end with two keywords. -/
theorem exists_not_suffix (word : List Char) :
    ∃ keyword : Keyword, (keyword = .type ∨ keyword = .input) ∧ ¬ keywordText keyword <:+ word := by
  by_cases htype : keywordText .type <:+ word
  · refine ⟨.input, .inr rfl, fun hinput => ?_⟩
    have := List.suffix_of_suffix_length_le htype hinput (by decide)
    exact absurd this (by decide)
  · exact ⟨.type, .inl rfl, htype⟩

/-- A list that was closed and opened again has another name before it. -/
theorem not_alike_of_name {word blank : List Char}
    (hends : Place.EndsWithName word blank out) : ¬ Alike outer out (.list outer) := by
  intro h
  obtain ⟨⟨front, rfl⟩, hword, hblank⟩ := hends
  obtain ⟨keyword, hkeyword, hsuffix⟩ := exists_not_suffix word
  let length := (mark keyword ++ front ++ '@' :: word ++ (blank ++ [' '])).length + 2
  have hname := isName_freshName length
  have hiff := h keyword hkeyword (freshName (length + 1))
    (List.replicate (outer + 1) ')' ++ ' ' :: (freshName (length + 1) ++ ['\x7b', '\x7d']))
  rw [Place.output_closing, Place.output_text_quiet fun c hc =>
    isQuiet_of_mem_declaration hname (List.mem_append_right (keywordText keyword) hc)] at hiff
  have hwithout : Declares keyword (freshName (length + 1))
      (mark keyword ++ ' ' :: (freshName (length + 1) ++ ['\x7b', '\x7d'])) := by
    rw [mark, List.cons_append, List.cons_append, List.append_assoc]
    refine Declares.cons ?_ (by decide)
    exact declares_keyword [' ', ' '] hname (by simp) (List.all_eq_true.1 (by decide))
  have hwith := hiff.2 hwithout
  have hsplit : mark keyword ++ (front ++ '@' :: word ++ blank ++
      ' ' :: (freshName (length + 1) ++ ['\x7b', '\x7d'])) =
      mark keyword ++ front ++ '@' :: word ++ (blank ++ [' ']) ++
        (List.replicate (length + 1) 'x' ++ ['\x7b', '\x7d']) := by
    simp [freshName]
  rw [hsplit] at hwith
  refine hsuffix (hwith.keyword_suffix ?_ (by simp) ?_ ?_ ?_)
  · exact fun c hc => isBlank_of_apart (fun _ => isDirectiveChar_of_isBlank) (hword c hc)
  · intro c hc
    rcases List.mem_append.1 hc with hc | hc
    · exact hblank c hc
    · rw [List.mem_singleton.1 hc]
      decide
  · omega
  · simp only [List.length_cons, List.length_nil]
    omega

/-- A place in which a line can begin, and which with its output declares the same as an argument
list, is that argument list, and the output is empty. -/
theorem eq_of_alike (htrail : Place.Trail q out) (hplace : ∃ p : Place, (p.step '\n').1 = q)
    (h : Alike outer out q) : out = [] ∧ q = .list outer := by
  have hbrace : ∀ s : List Char, (∀ c ∈ s, isQuiet c = true) →
      Place.text.output ('\x7d' :: s) = '\x7d' :: s := fun s hs =>
    congrArg ('\x7d' :: ·) (Place.output_text_quiet hs)
  obtain ⟨p, hp⟩ := hplace
  rcases Place.exists_of_step_lineFeed p with hq | hq | ⟨inner, hq⟩ | ⟨around, quote, hopen, hq⟩
  all_goals rw [hp] at hq; subst hq
  · refine absurd h (not_alike_of_earlier [] hbrace fun s hs => ?_)
    exact Place.output_list_quiet outer hs
  · refine absurd h (not_alike_of_earlier [] (fun s hs => ?_) fun s hs => ?_)
    · exact (Place.output_gap (NoList.cons (by decide) (by decide) s)).trans (hbrace s hs)
    · exact Place.output_list_quiet outer hs
  · rcases Nat.lt_trichotomy inner outer with hlt | rfl | hlt
    · refine absurd h (not_alike_of_earlier (List.replicate (inner + 1) ')')
        (fun s hs => ?_) fun s hs => ?_)
      · rw [Place.output_closing, hbrace s hs]
      · obtain ⟨rest, rfl⟩ := Nat.exists_eq_add_of_le' hlt
        rw [Place.output_closing_inner, Place.output_list_quiet rest hs]
    · refine ⟨?_, rfl⟩
      rcases htrail with hout | ⟨word, blank, hends⟩
      · exact hout
      · exact absurd h (not_alike_of_name hends)
    · refine absurd h (not_alike_of_later (List.replicate (outer + 1) ')')
        (fun s hs => ?_) fun s hs => ?_)
      · obtain ⟨rest, rfl⟩ := Nat.exists_eq_add_of_le' hlt
        rw [Place.output_closing_inner, Place.output_list_quiet rest hs]
      · rw [Place.output_closing, Place.output_text_quiet hs]
  · refine absurd h (not_alike_of_later (List.replicate (outer + 1) ')')
      (fun s hs => ?_) fun s hs => ?_)
    · refine Place.output_string_of_open hopen fun c hc => ?_
      rcases List.mem_append.1 hc with hc | hc
      · rw [List.eq_of_mem_replicate hc]
        decide
      · exact ⟨ne_of_class (hs c hc) (by decide), ne_of_class (hs c hc) (by decide),
          ne_of_class (hs c hc) (by decide)⟩
    · rw [Place.output_closing, Place.output_text_quiet hs]

end Alike

/-! ## Comments that are seen -/

/-- Behind the name of a directive every comment is seen in some schema. -/
theorem exists_not_invisible {comment : List Char} (hc : '\n' ∉ comment) {p : Place}
    (hp : p = .name ∨ p = .gap) :
    ∃ before after, placeBehind before = p ∧ ¬ Invisible before comment after := by
  let after := '(' :: '\x7d' :: declaration .type (freshName 9)
  have hquiet : ∀ c ∈ '\x7d' :: declaration .type (freshName 9), isQuiet c = true := fun c hc =>
    isQuiet_of_mem_closed 8 hc
  have htext : Place.text.output after = after :=
    congrArg ('(' :: ·) (Place.output_text_quiet hquiet)
  have hgap : Place.gap.output after = [' '] :=
    congrArg (' ' :: ·) (Place.output_list_quiet 0 hquiet)
  have hseen : ∀ before, Place.text.after before = p → Place.text.output before = before →
      before.length ≤ 6 → ¬ Invisible before comment after := by
    intro before hbefore hout hlength h
    have hiff := h.declares_iff (.inl rfl) (freshName 9)
    rw [Place.output_append, Place.output_append, hbefore, hout, output_gap_comment hc hp,
      output_gap_lineFeed hp, htext, hgap] at hiff
    have hwith : Declares .type (freshName 9) (before ++ ' ' :: '\n' :: after) := by
      have hdeclared := @declares_declaration .type _ (isName_freshName 8)
      have hbehind := hdeclared.append (before ++ [' ', '\n', '('])
      rwa [List.append_assoc] at hbehind
    have hshort := (hiff.1 hwith).length_le
    rw [freshName, List.length_replicate, List.length_append, List.length_cons, List.length_cons,
      List.length_nil] at hshort
    omega
  rcases hp with rfl | rfl
  · exact ⟨'@' :: keywordText .type, after, rfl, hseen _ rfl rfl (by decide)⟩
  · exact ⟨mark .type, after, rfl, hseen _ rfl rfl (by decide)⟩

/-- A place tolerates the comments that are invisible in all schemas that have the place. -/
theorem tolerates_of_invisible {p : Place} {comment : List Char} (hc : '\n' ∉ comment)
    (hp : p.isInString = false)
    (h : ∀ before after, placeBehind before = p → Invisible before comment after)
    (after : List Char) : p.Tolerates comment after := by
  cases p with
  | text => trivial
  | comment => trivial
  | name =>
    obtain ⟨before, after, hbefore, hseen⟩ := exists_not_invisible hc (.inl rfl)
    exact absurd (h before after hbefore) hseen
  | gap =>
    obtain ⟨before, after, hbefore, hseen⟩ := exists_not_invisible hc (.inr rfl)
    exact absurd (h before after hbefore) hseen
  | list outer =>
    have hstart : Place.Trail (.list outer) [] := .inl rfl
    refine eq_of_alike ?_ ?_ (alike_of_invisible h)
    · exact Place.trail_after hstart (comment ++ ['\n'])
    · exact ⟨(Place.list outer).after comment, by rw [Place.after_append]; rfl⟩
  | string around quote => cases hp

/-- Exactly the tolerated comments are invisible.  A tolerated comment is invisible in its schema.
A comment that is invisible in every schema with a given place before the line feed is tolerated
there, so of the others each is seen in some schema. -/
theorem invisible_iff_tolerates {comment : List Char} (hc : '\n' ∉ comment) :
    (∀ before after, (placeBehind before).Tolerates comment after →
      Invisible before comment after) ∧
    ∀ p : Place, p.isInString = false →
      ((∀ before after, placeBehind before = p → Invisible before comment after) ↔
        ∀ after, p.Tolerates comment after) := by
  refine ⟨fun before after h => invisible_of_tolerates hc h, fun p hp => ⟨?_, ?_⟩⟩
  · exact tolerates_of_invisible hc hp
  · rintro h before after rfl
    exact invisible_of_tolerates hc (h after)

theorem invisible_iff_tolerates_balanced :
    '\n' ∉ " see (1)".toList ∧ (Place.list 0).isInString = false ∧
      Invisible "type A @auth(".toList " see (1)".toList ") @model { id: ID! }".toList ∧
      ∃ before after, placeBehind before = .list 0 ∧ ¬ Invisible before ")".toList after := by
  refine ⟨by decide, rfl, ?_, ?_⟩
  · exact (invisible_iff_tolerates (by decide)).1 _ _ ⟨rfl, rfl⟩
  · by_contra hnone
    have hall : ∀ before after, placeBehind before = .list 0 →
        Invisible before ")".toList after := fun before after hbefore => by
      by_contra hseen
      exact hnone ⟨before, after, hbefore, hseen⟩
    have htolerates := ((@invisible_iff_tolerates ")".toList (by decide)).2 (.list 0) rfl).1 hall []
    have hclosed : Place.text = .list 0 := htolerates.2
    cases hclosed

/-- A comment with an open parenthesis in the argument list of a directive: the rest of the schema
is passed over. -/
theorem not_invisible_open :
    (placeBehind "type A @auth(".toList).isInString = false ∧ '\n' ∉ " see (1".toList ∧
      ¬ Invisible "type A @auth(".toList " see (1".toList
        "  rules: [1]\n) @model { id: ID! }".toList := by
  refine ⟨rfl, by decide, fun h => ?_⟩
  have hiff := h.declares_iff (.inl rfl) ['A']
  have hcommented : Place.text.output ("type A @auth(".toList ++ ' ' :: '#' ::
      (" see (1".toList ++ '\n' :: "  rules: [1]\n) @model { id: ID! }".toList)) =
      "type A @auth ".toList := rfl
  have hplain : Place.text.output ("type A @auth(".toList ++
      '\n' :: "  rules: [1]\n) @model { id: ID! }".toList) =
      keywordText .type ++ ([' '] ++ (['A'] ++ (" @auth  @model ".toList ++
        '\x7b' :: (" id: ID! ".toList ++ ['\x7d'])))) := rfl
  have hblock := @block?_append (keywordText .type) [' '] ['A'] " @auth  @model ".toList
    " id: ID! ".toList [] .type (keyword?_append .type) (by simp)
    (List.all_eq_true.1 (by decide)) (by decide) (stops_cons (by decide) _)
    (List.all_eq_true.1 (by decide)) (List.all_eq_true.1 (by decide))
  rw [hcommented, hplain] at hiff
  have hdeclared := hiff.2 ⟨_, blocksFrom_of_some hblock ▸ List.mem_cons_self, rfl, rfl⟩
  exact absurd hdeclared.brace_mem (by decide)

end SchemaAccess.Loose
