import SchemaAccess.Proofs.Text.Pieces

/-!
# What a search recognises and what it passes over

Laws of the recognisers on a text that is known to begin with a field, a parameter or a block, and
laws that say where none of them begins.

* `typed?_append`, `parenthesized?_append`, `directiveRun_cons` — the parts of a field.
* `Silent` — no colon or parenthesis behind the name at the front, so nothing is recognised there.
* `field?_append`, `field?_append_arguments`, `param?_append` — a field or parameter at the front.
* `Boundary`, `Ending` — what may follow an item, or text that is passed over.
* `occurrences_passive`, `occurrences_between` — what a search for items passes over.
* `block?_append`, `blocksFrom_between` — the same for blocks.
-/

namespace SchemaAccess.Loose

open Text

theorem isBlank_of_isNameStart {c : Char} (h : isNameStart c = true) : isBlank c = false :=
  isBlank_of_isNameChar (isNameChar_of_isNameStart h)

/-- A name does not begin with white space. -/
theorem stops_name {name : List Char} (h : IsName name) (rest : List Char) :
    Stops isBlank (name ++ rest) := by
  cases name with
  | nil => exact h.elim
  | cons c cs => exact stops_cons (isBlank_of_isNameStart h.1) _

/-! ## Parts of fields

Each recogniser on a text that is put together from the parts that it looks for.  What follows must
not go on with the last part, which `Stops` says for each class. -/

section Parts

variable {blank before after type rest : List Char}

/-- A type behind a colon is taken whole, with any white space around the colon. -/
theorem typed?_append (hb : ∀ c ∈ before, isBlank c = true) (ha : ∀ c ∈ after, isBlank c = true)
    (ht : type ≠ []) (htype : ∀ c ∈ type, isTypeChar c = true) (hr : Stops isTypeChar rest) :
    typed? (before ++ ':' :: (after ++ (type ++ rest))) = some (type, rest) := by
  have hstop : Stops isBlank (type ++ rest) := by
    cases type with
    | nil => exact absurd rfl ht
    | cons c cs =>
      have hc := htype c List.mem_cons_self
      exact stops_cons (isBlank_of_apart (fun _ => isTypeChar_of_isBlank) hc) (cs ++ rest)
  rw [typed?, dropWhile_append_of_stops hb (stops_cons (by decide) _)]
  simp only
  rw [dropWhile_append_of_stops ha hstop, type?, takeWhile_append_of_stops htype hr,
    dropWhile_append_of_stops htype hr]
  cases type with
  | nil => exact absurd rfl ht
  | cons c cs => rfl

/-- An argument list ends with its first closing parenthesis. -/
theorem parenthesized?_append {inside : List Char} (h : ')' ∉ inside) (rest : List Char) :
    parenthesized? ('(' :: (inside ++ ')' :: rest)) = some (inside, rest) := by
  have hin : ∀ c ∈ inside, decide (c ≠ ')') = true := by
    intro c hc
    rw [decide_eq_true_eq]
    rintro rfl
    exact h hc
  have hstop : Stops (fun c => decide (c ≠ ')')) (')' :: rest) := stops_cons (by simp) rest
  rw [parenthesized?, dropWhile_append_of_stops hin hstop]
  simp only
  rw [takeWhile_append_of_stops hin hstop]

theorem parenthesized?_of_head {s : List Char} (h : s.head? ≠ some '(') :
    parenthesized? s = none := by
  rw [parenthesized?]
  rintro inner rfl
  exact h rfl

/-- No directive follows. -/
theorem directiveRun_of_head {s : List Char} (h : (s.dropWhile isBlank).head? ≠ some '@') :
    directiveRun s = ([], s) := by
  rw [directiveRun]
  split
  · next hs => rw [hs] at h; exact absurd rfl h
  · rfl

/-- A directive follows if there is a name behind an at sign. -/
theorem directiveRun_of_name? {s name : List Char} (hs : s.dropWhile isBlank = '@' :: after)
    (hn : name? after = some (name, rest)) :
    directiveRun s =
      (s.takeWhile isBlank ++ '@' :: name ++ (directiveRun rest).1, (directiveRun rest).2) := by
  rw [directiveRun]
  split
  · next hs' =>
    rw [hs, List.cons.injEq] at hs'
    obtain ⟨-, rfl⟩ := hs'
    split
    · next hn' =>
      rw [hn, Option.some.injEq, Prod.mk.injEq] at hn'
      obtain ⟨rfl, rfl⟩ := hn'
      rfl
    · next hn' => rw [hn] at hn'; cases hn'
  · next hs' => exact absurd hs (hs' _)

/-- An at sign without a name behind it is no directive, and is left. -/
theorem directiveRun_of_name?_eq_none {s : List Char} (hs : s.dropWhile isBlank = '@' :: after)
    (hn : name? after = none) : directiveRun s = ([], s) := by
  rw [directiveRun]
  split
  · next hs' =>
    rw [hs, List.cons.injEq] at hs'
    obtain ⟨-, rfl⟩ := hs'
    split
    · next hn' => rw [hn] at hn'; cases hn'
    · rfl
  · rfl

/-- A run begins with its first directive and goes on behind it. -/
theorem directiveRun_cons {name : List Char} (hb : ∀ c ∈ blank, isBlank c = true)
    (hn : IsName name) (hr : Stops isNameChar rest) :
    directiveRun (blank ++ '@' :: (name ++ rest)) =
      (blank ++ '@' :: (name ++ (directiveRun rest).1), (directiveRun rest).2) := by
  have hstop : Stops isBlank ('@' :: (name ++ rest)) := stops_cons (by decide) _
  rw [directiveRun_of_name? (dropWhile_append_of_stops hb hstop) (name?_append hn hr),
    takeWhile_append_of_stops hb hstop, List.append_assoc, List.cons_append]

end Parts

/-! ## Where nothing is recognised

A field or a parameter begins with a name, behind which there is a colon or a parenthesis.  `Silent`
says that neither is there, and no search finds anything at the front of a silent text. -/

theorem name?_eq_none {c : Char} (h : isNameStart c = false) (rest : List Char) :
    name? (c :: rest) = none := by
  rw [name?, if_neg (by simp [h])]

/-- Behind a name the rest of the name characters is gone. -/
theorem name?_rest {s name rest : List Char} (h : name? s = some (name, rest)) :
    rest = s.dropWhile isNameChar := by
  cases s with
  | nil => cases h
  | cons c cs =>
    rw [name?] at h
    split at h
    · next hc =>
      rw [Option.some.injEq, Prod.mk.injEq] at h
      rw [List.dropWhile_cons_of_pos (isNameChar_of_isNameStart hc), h.2]
    · cases h

/-- True of a character that makes the name before it the name of a field. -/
def isOpening (c : Char) : Bool := c == ':' || c == '('

theorem isOpening_of_class {p : Char → Bool} {c : Char} (hc : p c = true) (hcolon : p ':' = false)
    (hparen : p '(' = false) : isOpening c = false := by
  rw [isOpening, Bool.or_eq_false_iff, beq_eq_false_iff_ne, beq_eq_false_iff_ne]
  exact ⟨ne_of_class hc hcolon, ne_of_class hc hparen⟩

/-- Behind the name at the front of the text, if there is one, is nothing that makes it the name of
a field. -/
def Silent (s : List Char) : Prop :=
  Stops isOpening ((s.dropWhile isNameChar).dropWhile isBlank)

theorem Silent.head_ne {s name rest : List Char} (h : Silent s)
    (hn : name? s = some (name, rest)) {c : Char} (hc : isOpening c = true) :
    (rest.dropWhile isBlank).head? ≠ some c := by
  intro hr
  rw [name?_rest hn] at hr
  rw [h c hr] at hc
  cases hc

theorem typed?_of_head {s : List Char} (h : (s.dropWhile isBlank).head? ≠ some ':') :
    typed? s = none := by
  rw [typed?]
  split
  · next hs => rw [hs] at h; exact absurd rfl h
  · rfl

/-- At the front of a silent text there is no parameter. -/
theorem param?_eq_none {s : List Char} (h : Silent s) : param? s = none := by
  cases hn : name? s with
  | none => simp [param?, hn]
  | some found =>
    have htyped := typed?_of_head (h.head_ne hn (show isOpening ':' = true by decide))
    simp [param?, hn, htyped]

/-- At the front of a silent text there is no field, with arguments or without. -/
theorem field?_eq_none {s : List Char} (h : Silent s) : field? s = none := by
  cases hn : name? s with
  | none => simp [field?, hn]
  | some found =>
    have hparen := parenthesized?_of_head (h.head_ne hn (show isOpening '(' = true by decide))
    have htyped : typed? (found.2.dropWhile isBlank) = none := by
      refine typed?_of_head ?_
      rw [dropWhile_dropWhile]
      exact h.head_ne hn (by decide)
    simp [field?, hn, hparen, htyped]

/-! ## Fields and parameters at the front

A field that is written out is found as it is written.  The two laws for fields are with and without
arguments, since a list in parentheses is tried first. -/

section Fronts

variable {name before after type rest : List Char}

theorem stops_blanks (hb : ∀ c ∈ before, isBlank c = true) (c : Char) (hc : isNameChar c = false)
    (rest : List Char) : Stops isNameChar (before ++ c :: rest) :=
  stops_append (fun d hd => isNameChar_of_isBlank (hb d hd)) (stops_cons hc rest)

/-- A parameter at the front is found with its name and type. -/
theorem param?_append (hn : IsName name) (hb : ∀ c ∈ before, isBlank c = true)
    (ha : ∀ c ∈ after, isBlank c = true) (ht : type ≠ [])
    (htype : ∀ c ∈ type, isTypeChar c = true) (hr : Stops isTypeChar rest) :
    param? (name ++ (before ++ ':' :: (after ++ (type ++ rest)))) = some ((name, type), rest) := by
  have hname := name?_append hn (stops_blanks hb ':' (by decide) (after ++ (type ++ rest)))
  simp [param?, hname, typed?_append hb ha ht htype hr]

/-- **A field without arguments at the front is found**, with the directives that follow its
type. -/
theorem field?_append (hn : IsName name) (hb : ∀ c ∈ before, isBlank c = true)
    (ha : ∀ c ∈ after, isBlank c = true) (ht : type ≠ [])
    (htype : ∀ c ∈ type, isTypeChar c = true) (hr : Stops isTypeChar rest) :
    field? (name ++ (before ++ ':' :: (after ++ (type ++ rest)))) =
      some (⟨name, none, type, (directiveRun rest).1⟩, (directiveRun rest).2) := by
  have hname := name?_append hn (stops_blanks hb ':' (by decide) (after ++ (type ++ rest)))
  have hdrop : (before ++ ':' :: (after ++ (type ++ rest))).dropWhile isBlank =
      ':' :: (after ++ (type ++ rest)) :=
    dropWhile_append_of_stops hb (stops_cons (by decide) _)
  have hparen : parenthesized? (':' :: (after ++ (type ++ rest))) = none :=
    parenthesized?_of_head (by simp)
  have htyped : typed? (':' :: (after ++ (type ++ rest))) = some (type, rest) :=
    @typed?_append [] after type rest (by simp) ha ht htype hr
  simp [field?, hname, hdrop, hparen, htyped]

/-- **A field with arguments at the front is found**, with the text between its parentheses as it
stands. -/
theorem field?_append_arguments {blank inside : List Char} (hn : IsName name)
    (hblank : ∀ c ∈ blank, isBlank c = true) (hin : ')' ∉ inside)
    (hb : ∀ c ∈ before, isBlank c = true) (ha : ∀ c ∈ after, isBlank c = true) (ht : type ≠ [])
    (htype : ∀ c ∈ type, isTypeChar c = true) (hr : Stops isTypeChar rest) :
    field? (name ++ (blank ++ '(' :: (inside ++
        ')' :: (before ++ ':' :: (after ++ (type ++ rest)))))) =
      some (⟨name, some inside, type, (directiveRun rest).1⟩, (directiveRun rest).2) := by
  have hname := name?_append hn (stops_blanks hblank '(' (by decide)
    (inside ++ ')' :: (before ++ ':' :: (after ++ (type ++ rest)))))
  have hstop : Stops isBlank ('(' :: (inside ++
      ')' :: (before ++ ':' :: (after ++ (type ++ rest))))) := stops_cons (by decide) _
  have hdrop := dropWhile_append_of_stops hblank hstop
  have hparen := parenthesized?_append hin (before ++ ':' :: (after ++ (type ++ rest)))
  have htyped := typed?_append hb ha ht htype hr
  simp [field?, hname, hdrop, hparen, htyped]

end Fronts

/-! ## Searches for items

Fields and parameters are searched for alike, so what a search passes over is stated once for any
recogniser that begins with a name and needs a colon or a parenthesis behind it. -/

/-- True of a character that keeps an item from ending before it. -/
def isContinuation (c : Char) : Bool := isOpening c || c == '@'

/-- What may follow an item: nothing that extends its type or directives, or that makes a name at
its end the name of a field. -/
structure Boundary (rest : List Char) : Prop where
  head : Stops isTypeChar rest
  next : Stops isContinuation (rest.dropWhile isBlank)

theorem boundary_nil : Boundary [] := ⟨stops_nil _, stops_nil _⟩

/-- No name goes on at a boundary, since no type does. -/
theorem Boundary.stops_name {rest : List Char} (h : Boundary rest) : Stops isNameChar rest := by
  intro c hc
  have := h.head c hc
  rw [isTypeChar, Bool.or_eq_false_iff, Bool.or_eq_false_iff, Bool.or_eq_false_iff] at this
  exact this.1.1.1

theorem Boundary.head_ne {rest : List Char} (h : Boundary rest) {c : Char}
    (hc : isContinuation c = true) : (rest.dropWhile isBlank).head? ≠ some c := by
  intro hr
  rw [h.next c hr] at hc
  cases hc

/-- What may follow text that is passed over: nothing that makes a name at its end longer, or the
name of a field. -/
structure Ending (rest : List Char) : Prop where
  name : Stops isNameChar rest
  next : Stops isOpening (rest.dropWhile isBlank)

theorem Boundary.ending {rest : List Char} (h : Boundary rest) : Ending rest where
  name := h.stops_name
  next c hc := by
    rw [← Bool.not_eq_true]
    intro ho
    exact h.head_ne (by rw [isContinuation, ho]; rfl) hc

/-- **A name in text without colons and parentheses is not the name of a field**, nor is the name at
the end of such a text, since what follows neither makes it longer nor makes it a field. -/
theorem silent_append {s rest : List Char} (hs : ∀ c ∈ s, isOpening c = false)
    (h : Ending rest) : Silent (s ++ rest) := by
  have hname : (s ++ rest).dropWhile isNameChar = s.dropWhile isNameChar ++ rest := by
    rw [List.dropWhile_append]
    split
    · next he =>
      rw [List.isEmpty_iff.1 he, List.nil_append]
      exact dropWhile_append_of_stops (s := []) (by simp) h.name
    · rfl
  rw [Silent, hname, List.dropWhile_append]
  split
  · exact h.next
  · next hne =>
    have hsuffix : (s.dropWhile isNameChar).dropWhile isBlank <:+ s :=
      (List.dropWhile_suffix _).trans (List.dropWhile_suffix _)
    cases hd : (s.dropWhile isNameChar).dropWhile isBlank with
    | nil => rw [hd] at hne; exact absurd rfl hne
    | cons d ds =>
      rw [hd] at hsuffix
      exact stops_cons (hs d (hsuffix.subset List.mem_cons_self)) (ds ++ rest)

/-- A recogniser of items: what it recognises begins with a name that is not silent. -/
structure Recognizer.IsNamed {α : Type} (r : Recognizer α) : Prop where
  start : ∀ {c : Char}, isNameStart c = false → ∀ cs, r.recognize (c :: cs) = none
  silent : ∀ {s : List Char}, Silent s → r.recognize s = none

theorem isNamed_field? : Recognizer.IsNamed ⟨field?, length_lt_of_field?⟩ where
  start h cs := by simp [field?, name?_eq_none h]
  silent := field?_eq_none

theorem isNamed_param? : Recognizer.IsNamed ⟨param?, length_lt_of_param?⟩ where
  start h cs := by simp [param?, name?_eq_none h]
  silent := param?_eq_none

section Occurrences

variable {α : Type} {r : Recognizer α} {s rest : List Char}

/-- A search passes over text between items, in which no name begins. -/
theorem occurrences_between (hr : r.IsNamed) (hs : ∀ c ∈ s, isNameStart c = false) :
    occurrences r (s ++ rest) = occurrences r rest := by
  induction s with
  | nil => rfl
  | cons c cs ih =>
    rw [List.cons_append, occurrences_of_none (hr.start (hs c List.mem_cons_self) _),
      ih fun d hd => hs d (List.mem_cons_of_mem c hd)]

/-- **A search passes over text without colons and parentheses at the end of an item**, such as a
default value or what is left of directives.  By induction on the text, which is silent at each
place. -/
theorem occurrences_passive (hr : r.IsNamed) (hs : ∀ c ∈ s, isOpening c = false)
    (h : Ending rest) : occurrences r (s ++ rest) = occurrences r rest := by
  induction s with
  | nil => rfl
  | cons c cs ih =>
    rw [List.cons_append, occurrences_of_none, ih fun d hd => hs d (List.mem_cons_of_mem c hd)]
    exact hr.silent (silent_append (s := c :: cs) hs h)

end Occurrences

/-! ## Blocks

A block is taken from its keyword to the closing brace of its body.  Nothing else is needed of the
header and the body than that they have no braces. -/

/-- A body goes up to its first brace. -/
theorem braced?_append {body : List Char} (h : ∀ c ∈ body, isPlain c = true) (rest : List Char) :
    braced? ('\x7b' :: (body ++ '\x7d' :: rest)) = some (body, rest) := by
  have hstop : Stops isPlain ('\x7d' :: rest) := stops_cons (by decide) rest
  rw [braced?, dropWhile_append_of_stops h hstop]
  simp only
  rw [takeWhile_append_of_stops h hstop]

/-- **A block at the front is found**, with white space before its name, and with all up to the
brace as its header. -/
theorem block?_append {word blank name header body rest : List Char} {keyword : Keyword}
    (hk : ∀ after, keyword? (word ++ after) = some (keyword, after)) (hne : blank ≠ [])
    (hblank : ∀ c ∈ blank, isBlank c = true) (hn : IsName name)
    (hstop : Stops isNameChar (header ++ '\x7b' :: (body ++ '\x7d' :: rest)))
    (hheader : ∀ c ∈ header, isPlain c = true) (hbody : ∀ c ∈ body, isPlain c = true) :
    block? (word ++ (blank ++ (name ++ (header ++ '\x7b' :: (body ++ '\x7d' :: rest))))) =
      some (⟨keyword, name, header, body⟩, rest) := by
  have hopen : Stops isPlain ('\x7b' :: (body ++ '\x7d' :: rest)) := stops_cons (by decide) _
  have hname : spacedName? (blank ++ (name ++ (header ++ '\x7b' :: (body ++ '\x7d' :: rest)))) =
      some (name, header ++ '\x7b' :: (body ++ '\x7d' :: rest)) := by
    rw [spacedName?, if_pos, dropWhile_append_of_stops hblank (stops_name hn _),
      name?_append hn hstop]
    cases blank with
    | nil => exact absurd rfl hne
    | cons c cs => simpa using hblank c List.mem_cons_self
  simp [block?, hk, hname, dropWhile_append_of_stops hheader hopen,
    takeWhile_append_of_stops hheader hopen, braced?_append hbody]

/-- No block begins at a character that is no letter. -/
theorem block?_eq_none {c : Char} (h : isWord c = false) (rest : List Char) :
    block? (c :: rest) = none := by
  have hfront : ∀ d ∈ ['t', 'i', 'e'], ∀ word, dropFront? (d :: word) (c :: rest) = none := by
    intro d hd word
    rw [dropFront?, if_neg]
    rintro rfl
    have : isWord d = true := by
      simp only [List.mem_cons, List.not_mem_nil, or_false] at hd
      rcases hd with rfl | rfl | rfl <;> decide
    rw [this] at h
    cases h
  have hkeyword : keyword? (c :: rest) = none := by
    rw [keyword?, show "type".toList = 't' :: "ype".toList from rfl, hfront 't' (by simp),
      show "input".toList = 'i' :: "nput".toList from rfl, hfront 'i' (by simp),
      show "enum".toList = 'e' :: "num".toList from rfl, hfront 'e' (by simp),
      show "interface".toList = 'i' :: "nterface".toList from rfl, hfront 'i' (by simp)]
    rfl
  simp [block?, hkeyword]

/-- A search passes over text between blocks. -/
theorem blocksFrom_between {s rest : List Char} (hs : ∀ c ∈ s, isWord c = false) :
    blocksFrom false (s ++ rest) = blocksFrom false rest := by
  induction s with
  | nil => rfl
  | cons c cs ih =>
    have hc := hs c List.mem_cons_self
    rw [List.cons_append, blocksFrom_of_none (.inr (block?_eq_none hc _)), hc,
      ih fun d hd => hs d (List.mem_cons_of_mem c hd)]

end SchemaAccess.Loose
