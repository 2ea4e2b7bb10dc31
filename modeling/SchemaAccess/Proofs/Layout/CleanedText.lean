import SchemaAccess.Proofs.Layout.Syntax
import SchemaAccess.Proofs.Loose.Search

/-!
# What is left of a layout when it is cleaned

Once comments, strings and argument lists are gone, the text between two braces has nothing in it
that could end it early, and the text between two parentheses has neither.

* `isItemChar`, `isBodyChar` — the characters of cleaned items and of whole bodies.
* `piecesWhere_directives`, `directiveRun_directives` — directives are told by their names.
-/

namespace SchemaAccess.Layout

open Text Loose

/-! ## The characters of a cleaned layout

Every node of a layout is shown to consist, when it is cleaned, of the characters of one class.  The
classes are nested: what stands in an item may stand in a body, and what stands in a body is no
brace.  So a body ends at the brace that was written for it, and an argument list at its
parenthesis. -/

/-- True of a character that stands in a cleaned item without arguments. -/
def isItemChar (c : Char) : Bool :=
  isBlank c || isTypeChar c || isValueChar c || ['@', ':', '='].contains c

/-- True of a character that stands in a cleaned header or body. -/
def isBodyChar (c : Char) : Bool := isItemChar c || ['(', ')', '&'].contains c

/-- White space may stand in an item, since comments and strings leave it there. -/
theorem isItemChar_of_isBlank {c : Char} (h : isBlank c = true) : isItemChar c = true := by
  rw [isItemChar, h]
  rfl

/-- What a type is made of may stand in an item. -/
theorem isItemChar_of_isTypeChar {c : Char} (h : isTypeChar c = true) : isItemChar c = true := by
  rw [isItemChar, h, Bool.or_true]
  rfl

theorem isTypeChar_of_isNameChar {c : Char} (h : isNameChar c = true) : isTypeChar c = true := by
  rw [isTypeChar, h]
  rfl

theorem isItemChar_of_isNameChar {c : Char} (h : isNameChar c = true) : isItemChar c = true :=
  isItemChar_of_isTypeChar (isTypeChar_of_isNameChar h)

theorem isItemChar_of_isValueChar {c : Char} (h : isValueChar c = true) : isItemChar c = true := by
  rw [isItemChar, h, Bool.or_true]
  rfl

/-- What may stand in an item may stand in a body; the other direction fails for parentheses and
ampersands. -/
theorem isBodyChar_of_isItemChar {c : Char} (h : isItemChar c = true) : isBodyChar c = true := by
  rw [isBodyChar, h]
  rfl

/-- No brace stands in a cleaned body, so the first brace behind its beginning is the one that ends
it. -/
theorem isPlain_of_isBodyChar {c : Char} (h : isBodyChar c = true) : isPlain c = true := by
  rw [isPlain, Bool.and_eq_true, bne_iff_ne, bne_iff_ne]
  exact ⟨ne_of_class h (by decide), ne_of_class h (by decide)⟩

/-- A cleaned piece of filler is white space: a comment has left its line feed. -/
theorem isBlank_of_mem_filler {f : Filler} {c : Char} (h : c ∈ f.text .cleaned) :
    isBlank c = true := by
  cases f with
  | blank d isBlank => rw [List.mem_singleton.1 h]; exact isBlank
  | comment text onLine => rw [List.mem_singleton.1 h]; decide

/-- A cleaned gap is white space. -/
theorem isBlank_of_mem_gap {gap : Gap} {c : Char} (h : c ∈ gap.text .cleaned) :
    isBlank c = true := by
  obtain ⟨f, -, hf⟩ := List.mem_flatMap.1 h
  exact isBlank_of_mem_filler hf

theorem isBlank_of_mem_space {space : Space} {c : Char} (h : c ∈ space.text .cleaned) :
    isBlank c = true := by
  rcases List.mem_append.1 h with h | h
  · exact isBlank_of_mem_filler h
  · exact isBlank_of_mem_gap h

/-- White space that must be there is still there when it is cleaned, so words that are kept apart
stay apart. -/
theorem text_space_ne_nil (space : Space) : space.text .cleaned ≠ [] := by
  rw [Space.text]
  cases space.first <;> simp [Filler.text]

/-- A cleaned run has nothing in it but white space and the characters of its class. -/
theorem mem_run {p : Char → Bool} {run : Run p} {c : Char} (h : c ∈ run.text .cleaned) :
    isBlank c = true ∨ p c = true := by
  obtain ⟨m, hm, hc⟩ := List.mem_flatMap.1 h
  cases m with
  | filler f => exact Or.inl (isBlank_of_mem_filler hc)
  | char d => rw [List.mem_singleton.1 hc]; exact Or.inr (run.allowed d hm)
  | literal l => rw [List.mem_singleton.1 hc]; exact Or.inl (by decide)

/-- A cleaned directive has its name and its at sign in it, and white space where its arguments
were. -/
theorem mem_directive {d : Directive} {c : Char} (h : c ∈ d.text .cleaned) :
    isBlank c = true ∨ c = '@' ∨ isNameChar c = true := by
  obtain ⟨before, name, arguments⟩ := d
  simp only [Directive.text, List.mem_append, List.mem_cons] at h
  rcases h with (h | rfl | h) | h
  · exact Or.inl (isBlank_of_mem_space h)
  · exact Or.inr (Or.inl rfl)
  · exact Or.inr (Or.inr (isNameChar_of_mem name.isName h))
  · cases arguments with
    | none => simp at h
    | some list =>
      rw [Option.map_some, Option.getD_some, ArgumentList.text, List.mem_singleton] at h
      rw [h]
      exact Or.inl (by decide)

theorem mem_directives {ds : List Directive} {c : Char} (h : c ∈ directivesText .cleaned ds) :
    isBlank c = true ∨ c = '@' ∨ isNameChar c = true := by
  obtain ⟨d, -, hd⟩ := List.mem_flatMap.1 h
  exact mem_directive hd

theorem isItemChar_of_mem_directives {ds : List Directive} {c : Char}
    (h : c ∈ directivesText .cleaned ds) : isItemChar c = true := by
  rcases mem_directives h with h | rfl | h
  · exact isItemChar_of_isBlank h
  · decide
  · exact isItemChar_of_isNameChar h

theorem isItemChar_of_mem_name {name : Name} {c : Char} (h : c ∈ name.chars) :
    isItemChar c = true := isItemChar_of_isNameChar (isNameChar_of_mem name.isName h)

/-- A margin is white space and commas, once descriptions are gone. -/
theorem isItemChar_of_mem_margin {margin : Margin} {c : Char} (h : c ∈ margin.text .cleaned) :
    isItemChar c = true := by
  rcases mem_run h with h | h
  · exact isItemChar_of_isBlank h
  · rw [beq_iff_eq.1 h]; decide

/-- What stands behind the type of an input value. -/
def InputValue.tail (stage : Stage) (v : InputValue) : List Char :=
  (v.defaultValue.map (·.text stage)).getD [] ++ directivesText stage v.directives

/-- The text of an input value in the order in which it is found: name, colon, type, and the tail
behind it. -/
theorem InputValue.text_eq (stage : Stage) (v : InputValue) (rest : List Char) :
    Item.text stage v ++ rest = v.name.chars ++ (Gap.text stage v.beforeColon ++
      ':' :: (Gap.text stage v.afterColon ++ (v.type.type.chars ++ (v.tail stage ++ rest)))) := by
  simp only [Item.text, InputValue.tail, List.append_assoc, List.cons_append]

/-- A default value without braces is made of value characters behind its equals sign. -/
theorem isItemChar_of_mem_default {d : DefaultValue} {c : Char} (h : c ∈ d.text .cleaned) :
    isItemChar c = true := by
  simp only [DefaultValue.text, List.mem_append, List.mem_cons] at h
  rcases h with h | rfl | h
  · exact isItemChar_of_isBlank (isBlank_of_mem_gap h)
  · decide
  · rcases mem_run h with h | h
    · exact isItemChar_of_isBlank h
    · exact isItemChar_of_isValueChar h

/-- Behind its type an input value has no colon and no parenthesis.  So nothing in its default value
or its directives is taken for another field or parameter. -/
theorem isOpening_of_mem_tail {v : InputValue} {c : Char} (h : c ∈ v.tail .cleaned) :
    isOpening c = false := by
  have hclasses : ∀ p : Char → Bool, p ':' = false → p '(' = false → p c = true →
      isOpening c = false := by
    intro p hcolon hparen hc
    rw [isOpening, Bool.or_eq_false_iff, beq_eq_false_iff_ne, beq_eq_false_iff_ne]
    exact ⟨ne_of_class hc hcolon, ne_of_class hc hparen⟩
  rcases List.mem_append.1 h with h | h
  · cases hd : v.defaultValue with
    | none => rw [hd] at h; simp at h
    | some d =>
      rw [hd, Option.map_some, Option.getD_some, DefaultValue.text] at h
      rcases List.mem_append.1 h with h | h
      · exact hclasses isBlank (by decide) (by decide) (isBlank_of_mem_gap h)
      · rcases List.mem_cons.1 h with rfl | h
        · decide
        · rcases mem_run h with h | h
          · exact hclasses isBlank (by decide) (by decide) h
          · exact hclasses isValueChar (by decide) (by decide) h
  · rcases mem_directives h with h | rfl | h
    · exact hclasses isBlank (by decide) (by decide) h
    · decide
    · exact hclasses isNameChar (by decide) (by decide) h

/-- An input value has no parenthesis in it, so an argument list goes as far as its own. -/
theorem isItemChar_of_mem_inputValue {v : InputValue} {c : Char}
    (h : c ∈ Item.text .cleaned v) : isItemChar c = true := by
  simp only [Item.text, List.mem_append, List.mem_cons] at h
  rcases h with ((((h | h) | rfl | h) | h) | h) | h
  · exact isItemChar_of_mem_name h
  · exact isItemChar_of_isBlank (isBlank_of_mem_gap h)
  · decide
  · exact isItemChar_of_isBlank (isBlank_of_mem_gap h)
  · exact isItemChar_of_isTypeChar (isTypeChar_of_mem v.type.isName h)
  · cases hd : v.defaultValue with
    | none => rw [hd] at h; simp at h
    | some d => rw [hd] at h; exact isItemChar_of_mem_default h
  · exact isItemChar_of_mem_directives h

theorem isItemChar_of_mem_enumValue {v : EnumValue} {c : Char}
    (h : c ∈ Item.text .cleaned v) : isItemChar c = true := by
  rcases List.mem_append.1 h with h | h
  · exact isItemChar_of_mem_name h
  · exact isItemChar_of_mem_directives h

/-- The characters of a list are those of its items and of margins. -/
theorem forall_mem_items {α : Type} [Item α] {p : Char → Bool}
    (hp : ∀ c, isItemChar c = true → p c = true) {items : Items α}
    (h : ∀ a ∈ items.list, ∀ c ∈ Item.text .cleaned a, p c = true) :
    ∀ c ∈ items.text .cleaned, p c = true := by
  intro c hc
  rcases List.mem_append.1 hc with hc | hc
  · exact hp c (isItemChar_of_mem_margin hc)
  · obtain ⟨e, he, hc⟩ := List.mem_flatMap.1 hc
    rcases List.mem_append.1 hc with hc | hc
    · exact h e.item (List.mem_map_of_mem he) c hc
    · exact hp c (isItemChar_of_mem_margin hc)

theorem isItemChar_of_mem_values {values : Items InputValue} :
    ∀ c ∈ values.text .cleaned, isItemChar c = true :=
  forall_mem_items (fun _ => id) fun _ _ _ => isItemChar_of_mem_inputValue

/-- The arguments of a field bring two parentheses into a body, and nothing else that an item does
not have. -/
theorem isBodyChar_of_mem_arguments {as : Arguments} {c : Char} (h : c ∈ as.text .cleaned) :
    isBodyChar c = true := by
  simp only [Arguments.text, List.mem_append, List.mem_cons, List.not_mem_nil, or_false] at h
  rcases h with (h | rfl | h) | rfl
  · exact isBodyChar_of_isItemChar (isItemChar_of_isBlank (isBlank_of_mem_gap h))
  · decide
  · exact isBodyChar_of_isItemChar (isItemChar_of_mem_values c h)
  · decide

theorem isBodyChar_of_mem_field {f : Field} {c : Char} (h : c ∈ Item.text .cleaned f) :
    isBodyChar c = true := by
  simp only [Item.text, List.mem_append, List.mem_cons] at h
  rcases h with ((((h | h) | h) | rfl | h) | h) | h
  · exact isBodyChar_of_isItemChar (isItemChar_of_mem_name h)
  · cases ha : f.arguments with
    | none => rw [ha] at h; simp at h
    | some as => rw [ha] at h; exact isBodyChar_of_mem_arguments h
  · exact isBodyChar_of_isItemChar (isItemChar_of_isBlank (isBlank_of_mem_gap h))
  · decide
  · exact isBodyChar_of_isItemChar (isItemChar_of_isBlank (isBlank_of_mem_gap h))
  · exact isBodyChar_of_isItemChar
      (isItemChar_of_isTypeChar (isTypeChar_of_mem f.type.isName h))
  · exact isBodyChar_of_isItemChar (isItemChar_of_mem_directives h)

/-- **No brace stands in a cleaned body**, of whatever kind.  The braces of default values would be
the exception, and `Constants` treats them. -/
theorem isPlain_of_mem_body {b : Body} {c : Char} (h : c ∈ b.text .cleaned) :
    isPlain c = true := by
  refine isPlain_of_isBodyChar ?_
  have hbody : ∀ c, isItemChar c = true → isBodyChar c = true := fun _ =>
    isBodyChar_of_isItemChar
  cases b with
  | object interfaces fields =>
    exact forall_mem_items hbody (fun _ _ _ => isBodyChar_of_mem_field) c h
  | interface interfaces fields =>
    exact forall_mem_items hbody (fun _ _ _ => isBodyChar_of_mem_field) c h
  | input fields => exact hbody c (isItemChar_of_mem_values c h)
  | enum values =>
    exact forall_mem_items hbody (fun _ _ _ hc => hbody _ (isItemChar_of_mem_enumValue hc)) c h

/-- Of the interfaces of a type, names and ampersands stay. -/
theorem mem_interfaces {is : Interfaces} {c : Char} (h : c ∈ is.text .cleaned) :
    isBlank c = true ∨ c = '&' ∨ isNameChar c = true := by
  simp only [Interfaces.text, List.mem_append] at h
  rcases h with (h | h) | h
  · exact Or.inl (isBlank_of_mem_space h)
  · have hword : IsName "implements".toList := by decide
    exact Or.inr (Or.inr (isNameChar_of_mem hword h))
  · obtain ⟨⟨link, name⟩, -, h⟩ := List.mem_flatMap.1 h
    rcases List.mem_append.1 h with h | h
    · cases link with
      | space s => exact Or.inl (isBlank_of_mem_space h)
      | ampersand before after =>
        rcases List.mem_append.1 h with h | h
        · exact Or.inl (isBlank_of_mem_gap h)
        · exact (List.mem_cons.1 h).elim (fun h => Or.inr (Or.inl h))
            fun h => Or.inl (isBlank_of_mem_gap h)
    · exact Or.inr (Or.inr (isNameChar_of_mem name.isName h))

/-- No brace stands in a cleaned header, so the first brace behind the name of a definition is the
one that begins its body. -/
theorem isPlain_of_mem_header {d : Definition} {c : Char} (h : c ∈ d.header .cleaned) :
    isPlain c = true := by
  refine isPlain_of_isBodyChar ?_
  simp only [Definition.header, List.mem_append] at h
  rcases h with (h | h) | h
  · cases hi : d.body.interfaces with
    | none => rw [hi] at h; simp at h
    | some is =>
      rw [hi] at h
      rcases mem_interfaces h with h | rfl | h
      · exact isBodyChar_of_isItemChar (isItemChar_of_isBlank h)
      · decide
      · exact isBodyChar_of_isItemChar (isItemChar_of_isNameChar h)
  · exact isBodyChar_of_isItemChar (isItemChar_of_mem_directives h)
  · exact isBodyChar_of_isItemChar (isItemChar_of_isBlank (isBlank_of_mem_gap h))

/-! ## Directives

A cleaned text tells what directives there were in two ways.  A header is split into words, and
behind a field the longest run of directives is taken; both give the names with their at signs, in
order. -/

section Directives

variable {p : Char → Bool} {rest : List Char}

/-- White space that must be there stops every class without white space. -/
theorem stops_space (hp : ∀ c, isBlank c = true → p c = false) (space : Space)
    (rest : List Char) : Stops p (space.text .cleaned ++ rest) := by
  cases hs : space.text .cleaned with
  | nil => exact absurd hs (text_space_ne_nil space)
  | cons c cs => exact stops_cons (hp c (isBlank_of_mem_space (hs ▸ List.mem_cons_self))) _

/-- A gap stops such a class if what follows does. -/
theorem stops_gap (hp : ∀ c, isBlank c = true → p c = false) (gap : Gap) (hr : Stops p rest) :
    Stops p (gap.text .cleaned ++ rest) :=
  stops_append (fun c hc => hp c (isBlank_of_mem_gap hc)) hr

/-- White space stands before the first directive. -/
theorem stops_directives (hp : ∀ c, isBlank c = true → p c = false) (ds : List Directive)
    (hr : Stops p rest) : Stops p (directivesText .cleaned ds ++ rest) := by
  cases ds with
  | nil => exact hr
  | cons d ds =>
    simp only [directivesText, List.flatMap_cons, Directive.text, List.append_assoc]
    exact stops_space hp d.before _

/-- What cleaning leaves of an argument list is white space. -/
theorem isBlank_of_mem_list {d : Directive} {c : Char}
    (h : c ∈ (d.arguments.map (·.text .cleaned)).getD []) : isBlank c = true := by
  cases ha : d.arguments with
  | none => rw [ha] at h; simp at h
  | some list =>
    rw [ha, Option.map_some, Option.getD_some, ArgumentList.text, List.mem_singleton] at h
    rw [h]
    decide

/-- **The words of directives are their names with the at sign**, wherever words end as long as
white space ends them and nothing in a directive does.  By induction on the directives, from the
last one on. -/
theorem piecesWhere_directives (hblank : ∀ c, isBlank c = true → p c = true)
    (hname : ∀ c, isNameChar c = true → p c = false) (hat : p '@' = false)
    (hr : Stops (fun c => !p c) rest) (ds : List Directive) :
    piecesWhere p (directivesText .cleaned ds ++ rest) =
      ds.map (fun d => '@' :: d.name.chars) ++ piecesWhere p rest := by
  induction ds with
  | nil => rfl
  | cons d ds ih =>
    have hword : ∀ c ∈ '@' :: d.name.chars, p c = false := by
      intro c hc
      rcases List.mem_cons.1 hc with rfl | hc
      · exact hat
      · exact hname c (isNameChar_of_mem d.name.isName hc)
    have hbefore : ∀ c ∈ d.before.text .cleaned, p c = true := fun c hc =>
      hblank c (isBlank_of_mem_space hc)
    have hlist : ∀ c ∈ (d.arguments.map (·.text .cleaned)).getD [], p c = true := fun c hc =>
      hblank c (isBlank_of_mem_list hc)
    have hstop : Stops (fun c => !p c) ((d.arguments.map (·.text .cleaned)).getD [] ++
        (directivesText .cleaned ds ++ rest)) :=
      stops_append (fun c hc => by rw [hlist c hc]; rfl)
        (stops_directives (fun c hc => by rw [hblank c hc]; rfl) ds hr)
    simp only [directivesText, List.flatMap_cons, Directive.text, List.append_assoc,
      List.map_cons] at ih hstop ⊢
    rw [piecesWhere_separators hbefore, piecesWhere_word (List.cons_ne_nil _ _) hword hstop,
      piecesWhere_separators hlist, ih, List.cons_append]

/-- **A run of directives is taken as a whole**, apart from white space at its end, which is left to
what follows.  The induction is on the directives, with the white space in front of them, which the
argument list of the directive before may have left, carried along as `lead`. -/
theorem directiveRun_directives (hr : Stops isNameChar rest)
    (hat : (rest.dropWhile isBlank).head? ≠ some '@') : ∀ (ds : List Directive)
    (lead : List Char), (∀ c ∈ lead, isBlank c = true) →
    ∃ run pad, directiveRun (lead ++ (directivesText .cleaned ds ++ rest)) = (run, pad ++ rest) ∧
      run ++ pad = lead ++ directivesText .cleaned ds ∧ ∀ c ∈ pad, isBlank c = true
  | [], lead, hlead => by
      refine ⟨[], lead, ?_, (List.append_nil lead).symm, hlead⟩
      refine directiveRun_of_head ?_
      rw [List.dropWhile_append_of_pos hlead]
      exact hat
  | d :: ds, lead, hlead => by
      obtain ⟨run, pad, hrun, htext, hpad⟩ := directiveRun_directives hr hat ds
        ((d.arguments.map (·.text .cleaned)).getD []) fun c hc => isBlank_of_mem_list hc
      have hblank : ∀ c ∈ lead ++ d.before.text .cleaned, isBlank c = true := fun c hc =>
        (List.mem_append.1 hc).elim (hlead c) isBlank_of_mem_space
      have hstop : Stops isNameChar ((d.arguments.map (·.text .cleaned)).getD [] ++
          (directivesText .cleaned ds ++ rest)) :=
        stops_append (fun c hc => isNameChar_of_isBlank (isBlank_of_mem_list hc))
          (stops_directives (fun _ => isNameChar_of_isBlank) ds hr)
      have hcons := directiveRun_cons hblank d.name.isName hstop
      refine ⟨lead ++ d.before.text .cleaned ++ '@' :: (d.name.chars ++ run), pad, ?_, ?_, hpad⟩
      · simp only [directivesText, List.flatMap_cons, Directive.text, List.append_assoc,
          List.cons_append] at hrun hcons ⊢
        rw [hcons, hrun]
      · simp only [directivesText, List.flatMap_cons, Directive.text, List.append_assoc,
          List.cons_append] at htext ⊢
        rw [htext]

/-- White space at the end makes no word. -/
theorem words_append_blanks {s pad : List Char} (hpad : ∀ c ∈ pad, isBlank c = true) :
    words (s ++ pad) = words s := by
  cases pad with
  | nil => rw [List.append_nil]
  | cons c pad =>
    have hend := piecesWhere_separators (fun d hd => hpad d (List.mem_cons_of_mem c hd)) []
    rw [List.append_nil] at hend
    rw [words, piecesWhere_append_cons (hpad c List.mem_cons_self), hend]
    exact List.append_nil _

/-- The words of a cleaned list of directives are their names with the at sign. -/
theorem words_directives (ds : List Directive) :
    words (directivesText .cleaned ds) = ds.map fun d => '@' :: d.name.chars := by
  have hname : ∀ c, isNameChar c = true → isBlank c = false := by
    intro c hc
    rw [← Bool.not_eq_true]
    intro hb
    rw [isNameChar_of_isBlank hb] at hc
    cases hc
  have h := piecesWhere_directives (fun _ => id) hname (by decide) (stops_nil _) ds
  rw [List.append_nil] at h
  rw [words, h]
  exact List.append_nil _

/-- The words of the run that is found behind a field. -/
theorem directiveRun_words (h : Boundary rest) (ds : List Directive) :
    ∃ run pad, directiveRun (directivesText .cleaned ds ++ rest) = (run, pad ++ rest) ∧
      words run = ds.map (fun d => '@' :: d.name.chars) ∧ ∀ c ∈ pad, isBlank c = true := by
  obtain ⟨run, pad, hrun, htext, hpad⟩ :=
    directiveRun_directives h.stops_name (h.head_ne (by decide)) ds [] (by simp)
  refine ⟨run, pad, hrun, ?_, hpad⟩
  rw [← words_append_blanks hpad, htext, List.nil_append, words_directives]

end Directives

end SchemaAccess.Layout
