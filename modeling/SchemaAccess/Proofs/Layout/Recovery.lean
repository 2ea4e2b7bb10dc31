import SchemaAccess.Proofs.Layout.CleanedText
import SchemaAccess.Proofs.Layout.Cleaning
import SchemaAccess.Proofs.Loose.Agreement

/-!
# A search recovers a schema from any layout of it

The cleaned text of a layout is searched for blocks, and the body of each block for fields.  Every
node of the layout is found where it stands, and nothing else is found.

* `IsFound` — an item is found at the front of a text, and the search goes on behind it.
* `occurrences_items` — the items of a list are found one by one.
* `reads_definition` — a definition is found as a block that reads as it.
* `view_print` — the view of two schemas is the view of what they define.
-/

namespace SchemaAccess.Layout

open Text Loose

/-! ## Items

A search goes through the cleaned text of a list.  An item is found at its name, and what the margin
behind it has left is passed over, up to the name of the next item. -/

section Items

variable {α β : Type} [Item α] {r : Recognizer β} {R : β → α → Prop} {rest : List Char}

/-- No name begins in a margin, so nothing is found there. -/
theorem isNameStart_of_mem_margin {margin : Margin} {c : Char}
    (h : c ∈ margin.text .cleaned) : isNameStart c = false := by
  rcases mem_run h with h | h
  · exact isNameStart_of_isBlank h
  · rw [beq_iff_eq.1 h]; decide

/-- A margin with something in it is not empty when it is cleaned.  So two items that are kept apart
by a comment alone are kept apart by its line feed. -/
theorem text_margin_ne_nil {margin : Margin} (hm : margin.marks ≠ []) :
    margin.text .cleaned ≠ [] := by
  obtain ⟨marks, allowed, apart⟩ := margin
  cases marks with
  | nil => exact absurd rfl hm
  | cons m marks =>
    rw [Run.text, List.flatMap_cons]
    cases m with
    | filler f => cases f <;> simp [Mark.text, Filler.text]
    | char c => simp [Mark.text]
    | literal l => simp [Mark.text, Literal.text]

/-- Behind the margin of an item begins another one, or nothing. -/
theorem boundary_margin (margin : Margin) (hm : margin.marks ≠ [])
    (h : Stops isContinuation (rest.dropWhile isBlank)) :
    Boundary (margin.text .cleaned ++ rest) := by
  have hclass : ∀ c ∈ margin.text .cleaned, isBlank c = true ∨ c = ',' := fun c hc =>
    (mem_run hc).imp_right fun h => beq_iff_eq.1 h
  have hne := text_margin_ne_nil hm
  generalize margin.text .cleaned = s at hclass hne
  constructor
  · cases s with
    | nil => exact absurd rfl hne
    | cons c cs =>
      refine stops_cons ?_ (cs ++ rest)
      rcases hclass c List.mem_cons_self with hc | rfl
      · exact isTypeChar_of_isBlank hc
      · decide
  · clear hne
    induction s with
    | nil => exact h
    | cons c cs ih =>
      have ih := ih fun d hd => hclass d (List.mem_cons_of_mem c hd)
      rcases hclass c List.mem_cons_self with hc | rfl
      · rw [List.cons_append, List.dropWhile_cons_of_pos hc]
        exact ih
      · rw [List.cons_append, List.dropWhile_cons_of_neg (by decide)]
        exact stops_cons (by decide) _

/-- The margin behind the last item ends with the list. -/
theorem boundary_end (margin : Margin) : Boundary (margin.text .cleaned ++ []) := by
  by_cases hm : margin.marks = []
  · rw [Run.text, hm]
    exact boundary_nil
  · exact boundary_margin margin hm (stops_nil _)

/-- A name does not continue an item. -/
theorem stops_isContinuation {name : List Char} (h : IsName name) (rest : List Char) :
    Stops isContinuation ((name ++ rest).dropWhile isBlank) := by
  cases name with
  | nil => exact h.elim
  | cons c cs =>
    rw [List.cons_append, List.dropWhile_cons_of_neg (by simp [isBlank_of_isNameStart h.1])]
    refine stops_cons ?_ (cs ++ rest)
    have hc : ∀ d, isNameStart d = false → c ≠ d := fun d hd => ne_of_class h.1 hd
    simp [isContinuation, isOpening, hc ':' (by decide), hc '(' (by decide), hc '@' (by decide)]

/-- An item is found at the front of a text, and the search goes on behind it. -/
def IsFound (r : Recognizer β) (R : β → α → Prop) (a : α) : Prop :=
  ∀ {rest : List Char}, Boundary rest → ∃ found, R found a ∧
    occurrences r (Item.text .cleaned a ++ rest) = found :: occurrences r rest

/-- An entry is found as its item, and the search goes on behind its margin. -/
theorem occurrences_entry (hr : r.IsNamed) (e : Entry α) (hf : IsFound r R e.item)
    (h : Boundary (e.after.text .cleaned ++ rest)) : ∃ found, R found e.item ∧
      occurrences r (e.text .cleaned ++ rest) = found :: occurrences r rest := by
  obtain ⟨found, hfound, hocc⟩ := hf h
  refine ⟨found, hfound, ?_⟩
  rw [Entry.text, List.append_assoc, hocc,
    occurrences_between hr fun c hc => isNameStart_of_mem_margin hc]

/-- The entries of a list are found one by one.  The margin between two of them is not empty, so
what stands behind an item is always a boundary: the next name, or the end. -/
theorem occurrences_entries [LawfulItem α] (hr : r.IsNamed) (hf : ∀ a : α, IsFound r R a) :
    ∀ {entries : List (Entry α)}, (entries.IsChain fun a _ => a.after.marks ≠ []) →
      List.Forall₂ R (occurrences r (entries.flatMap (Entry.text .cleaned)))
        (entries.map Entry.item)
  | [], _ => by
      rw [List.flatMap_nil, occurrences]
      exact List.Forall₂.nil
  | [e], _ => by
      obtain ⟨found, hfound, hocc⟩ :=
        occurrences_entry hr e (hf e.item) (boundary_end e.after)
      rw [List.flatMap_cons, List.flatMap_nil, hocc, occurrences]
      exact List.Forall₂.cons hfound List.Forall₂.nil
  | e :: next :: entries, separated => by
      rw [List.isChain_cons_cons] at separated
      have ih := occurrences_entries hr hf separated.2
      obtain ⟨name, tail, hn, ht⟩ :=
        text_entry_eq .cleaned next (entries.flatMap (Entry.text .cleaned))
      rw [List.flatMap_cons, ht] at ih
      obtain ⟨found, hfound, hocc⟩ := occurrences_entry hr e (hf e.item)
        (boundary_margin e.after separated.1 (stops_isContinuation hn tail))
      rw [List.flatMap_cons, List.flatMap_cons, ht, hocc]
      exact List.Forall₂.cons hfound ih

/-- **The items of a list are found one by one, and nothing else is found.**  It suffices that each
item is found where it stands, `IsFound`.  The recogniser begins with a name, so nothing is
recognised in a margin. -/
theorem occurrences_items [LawfulItem α] (hr : r.IsNamed) (hf : ∀ a : α, IsFound r R a)
    (items : Items α) :
    List.Forall₂ R (occurrences r (items.text .cleaned)) items.list := by
  rw [Items.text, occurrences_between hr fun c hc => isNameStart_of_mem_margin hc]
  exact occurrences_entries hr hf items.separated

end Items

/-! ## Arguments and fields

Each kind of item is shown to be found.  What differs is how much is taken: a parameter ends with
its type, a field takes the directives behind it, and the default value of an input field is passed
over. -/

/-- A type has at least one character. -/
theorem chars_type_ne_nil (t : TypeUse) : t.type.chars ≠ [] := by
  obtain ⟨type, isName⟩ := t
  cases type with
  | list element required => simp [TypeRef.chars]
  | named name required =>
    intro h
    rw [TypeRef.chars, List.append_eq_nil_iff] at h
    rw [TypeRef.baseName, h.1] at isName
    exact isName

/-- What stands behind the type of an input value does not make the type longer. -/
theorem stops_tail (v : InputValue) {rest : List Char} (h : Boundary rest) :
    Stops isTypeChar (v.tail .cleaned ++ rest) := by
  have hds := stops_directives (fun _ => isTypeChar_of_isBlank) v.directives h.head
  simp only [InputValue.tail, List.append_assoc]
  cases v.defaultValue with
  | none => exact hds
  | some d =>
    simp only [Option.map_some, Option.getD_some, DefaultValue.text, List.append_assoc]
    exact stops_gap (fun _ => isTypeChar_of_isBlank) d.before (stops_cons (by decide) _)

/-- What a search for fields takes for the directives of an input value; it may leave a part of
them behind, but nothing that looks like a field. -/
theorem directiveRun_tail (v : InputValue) {rest : List Char} (h : Boundary rest) :
    ∃ run left, directiveRun (v.tail .cleaned ++ rest) = (run, left ++ rest) ∧
      ∀ c ∈ left, isOpening c = false := by
  have hleft : ∀ c ∈ v.tail .cleaned, isOpening c = false := fun c => isOpening_of_mem_tail
  rw [InputValue.tail] at hleft ⊢
  cases hd : v.defaultValue with
  | none =>
    obtain ⟨run, pad, hrun, -, hpad⟩ := directiveRun_words h v.directives
    refine ⟨run, pad, hrun, fun c hc => ?_⟩
    rw [isOpening, Bool.or_eq_false_iff, beq_eq_false_iff_ne, beq_eq_false_iff_ne]
    exact ⟨ne_of_class (hpad c hc) (by decide), ne_of_class (hpad c hc) (by decide)⟩
  | some d =>
    rw [hd] at hleft
    refine ⟨[], _, directiveRun_of_head ?_, hleft⟩
    simp only [Option.map_some, Option.getD_some, DefaultValue.text, List.append_assoc,
      List.cons_append]
    rw [dropWhile_append_of_stops (fun _ => isBlank_of_mem_gap) (stops_cons (by decide) _)]
    simp

/-- **A parameter is found with its name and its type.**  Its default value and its directives are
passed over, since in front of a colon there would have to be a name, and they have no colon. -/
theorem isFound_param (v : InputValue) :
    IsFound ⟨param?, length_lt_of_param?⟩
      (fun found (v : InputValue) => (String.ofList found.1, String.ofList found.2) =
        (v.typedName.1, v.typedName.2.print)) v := by
  intro rest h
  have hparam : param? (Item.text .cleaned v ++ rest) =
      some ((v.name.chars, v.type.type.chars), v.tail .cleaned ++ rest) := by
    rw [InputValue.text_eq]
    exact param?_append v.name.isName (fun _ => isBlank_of_mem_gap)
      (fun _ => isBlank_of_mem_gap) (chars_type_ne_nil v.type)
      (fun _ => isTypeChar_of_mem v.type.isName) (stops_tail v h)
  refine ⟨(v.name.chars, v.type.type.chars), rfl, ?_⟩
  rw [occurrences_of_some hparam,
    occurrences_passive isNamed_param? (fun _ => isOpening_of_mem_tail) h.ending]

/-- **A field of an input type is found**, with the same name and type. -/
theorem isFound_inputField (v : InputValue) :
    IsFound ⟨field?, length_lt_of_field?⟩
      (fun found (v : InputValue) => found.ReadsTyped v.typedName) v := by
  intro rest h
  obtain ⟨run, left, hrun, hleft⟩ := directiveRun_tail v h
  have hfield : field? (Item.text .cleaned v ++ rest) =
      some (⟨v.name.chars, none, v.type.type.chars, run⟩, left ++ rest) := by
    rw [InputValue.text_eq, field?_append v.name.isName (fun _ => isBlank_of_mem_gap)
      (fun _ => isBlank_of_mem_gap) (chars_type_ne_nil v.type)
      (fun _ => isTypeChar_of_mem v.type.isName) (stops_tail v h), hrun]
  refine ⟨⟨v.name.chars, none, v.type.type.chars, run⟩, ⟨rfl, rfl⟩, ?_⟩
  rw [occurrences_of_some hfield, occurrences_passive isNamed_field? hleft h.ending]

/-- The parameters of a field are found in its argument list, in order and with their types. -/
theorem params_values (values : Items InputValue) :
    (Loose.params (values.text .cleaned)).map
        (fun entry => (String.ofList entry.1, String.ofList entry.2)) =
      (values.list.map InputValue.typedName).map fun entry => (entry.1, entry.2.print) := by
  have h := occurrences_items isNamed_param? isFound_param values
  rw [Loose.params]
  generalize occurrences _ (values.text .cleaned) = found at h
  generalize values.list = list at h
  induction h with
  | nil => rfl
  | cons hab _ ih => rw [List.map_cons, List.map_cons, List.map_cons, hab, ih]

/-- A run of directives makes a relationship exactly if one of the directives does. -/
theorem isRelationship_eq {run : List Char} {ds : List Directive}
    (h : words run = ds.map fun d => '@' :: d.name.chars) :
    isRelationship run = (directiveNames ds).any relationshipDirectives.contains := by
  rw [isRelationship, h, directiveNames, List.any_map, List.any_map]
  rfl

theorem Field.text_eq (stage : Stage) (f : Field) (rest : List Char) :
    Item.text stage f ++ rest = f.name.chars ++ ((f.arguments.map (·.text stage)).getD [] ++
      (Gap.text stage f.beforeColon ++ ':' :: (Gap.text stage f.afterColon ++
        (f.type.type.chars ++ (directivesText stage f.directives ++ rest))))) := by
  simp only [Item.text, List.append_assoc, List.cons_append]

/-- **A field is found and reads as what it defines.**  The two cases are those of the recogniser:
without arguments, and with a list that the first parenthesis closes, because no parenthesis is in
it. -/
theorem isFound_field (f : Field) :
    IsFound ⟨field?, length_lt_of_field?⟩
      (fun found (f : Field) => found.Reads f.definition) f := by
  intro rest h
  obtain ⟨run, pad, hrun, hwords, hpad⟩ := directiveRun_words h f.directives
  have hstop := stops_directives (fun _ => isTypeChar_of_isBlank) f.directives h.head
  have hbetween : ∀ found, field? (Item.text .cleaned f ++ rest) = some (found, pad ++ rest) →
      occurrences ⟨field?, length_lt_of_field?⟩ (Item.text .cleaned f ++ rest) =
        found :: occurrences ⟨field?, length_lt_of_field?⟩ rest := by
    intro found hfound
    rw [occurrences_of_some hfound,
      occurrences_between isNamed_field? fun c hc => isNameStart_of_isBlank (hpad c hc)]
  have hrelationship := isRelationship_eq hwords
  cases ha : f.arguments with
  | none =>
    refine ⟨⟨f.name.chars, none, f.type.type.chars, run⟩, ⟨rfl, ?_, rfl, hrelationship⟩,
      hbetween _ ?_⟩
    · rw [Field.definition, ha]
      rfl
    · rw [Field.text_eq, ha, Option.map_none, Option.getD_none, List.nil_append,
        field?_append f.name.isName (fun _ => isBlank_of_mem_gap) (fun _ => isBlank_of_mem_gap)
          (chars_type_ne_nil f.type) (fun _ => isTypeChar_of_mem f.type.isName) hstop, hrun]
  | some as =>
    have hinside : ')' ∉ as.values.text .cleaned := by
      intro hc
      exact absurd (isItemChar_of_mem_values ')' hc) (by decide)
    refine ⟨⟨f.name.chars, some (as.values.text .cleaned), f.type.type.chars, run⟩,
      ⟨rfl, ?_, rfl, hrelationship⟩, hbetween _ ?_⟩
    · rw [Field.definition, ha]
      exact params_values as.values
    · rw [Field.text_eq, ha, Option.map_some, Option.getD_some]
      simp only [Arguments.text, List.append_assoc, List.cons_append, List.nil_append]
      rw [field?_append_arguments f.name.isName (fun _ => isBlank_of_mem_gap) hinside
          (fun _ => isBlank_of_mem_gap) (fun _ => isBlank_of_mem_gap)
          (chars_type_ne_nil f.type) (fun _ => isTypeChar_of_mem f.type.isName) hstop, hrun]

/-- The fields of a type are found one by one. -/
theorem reads_fields (fs : Items Field) :
    List.Forall₂ Loose.Field.Reads (Loose.fields (fs.text .cleaned))
      (fs.list.map Field.definition) :=
  List.forall₂_map_right_iff.2 (occurrences_items isNamed_field? isFound_field fs)

theorem readsTyped_fields (values : Items InputValue) :
    List.Forall₂ Loose.Field.ReadsTyped (Loose.fields (values.text .cleaned))
      (values.list.map InputValue.typedName) :=
  List.forall₂_map_right_iff.2 (occurrences_items isNamed_field? isFound_inputField values)

/-! ## Enum values

The values of an enumeration are not searched for.  Its body is split at white space and commas, and
the pieces that are directives are left out. -/

/-- True of what separates the values of an enum. -/
def isSeparator (c : Char) : Bool := isBlank c || c == ','

/-- True of a piece of an enum that is no directive. -/
def isValue (piece : List Char) : Bool := decide (piece.head? ≠ some '@')

theorem isSeparator_of_isBlank {c : Char} (h : isBlank c = true) : isSeparator c = true := by
  rw [isSeparator, h]
  rfl

theorem isSeparator_of_isNameChar {c : Char} (h : isNameChar c = true) :
    isSeparator c = false := by
  rw [isSeparator, Bool.or_eq_false_iff, beq_eq_false_iff_ne]
  refine ⟨?_, ne_of_class h (by decide)⟩
  rw [← Bool.not_eq_true]
  intro hb
  rw [isNameChar_of_isBlank hb] at h
  cases h

/-- A margin is all separators. -/
theorem isSeparator_of_mem_margin {margin : Margin} {c : Char} (h : c ∈ margin.text .cleaned) :
    isSeparator c = true := by
  rw [isSeparator, Bool.or_eq_true]
  exact mem_run h

/-- A name is no directive, for it does not begin with an at sign. -/
theorem isValue_name (name : Name) : isValue name.chars = true := by
  obtain ⟨chars, isName⟩ := name
  cases chars with
  | nil => exact isName.elim
  | cons c cs => simpa [isValue] using ne_of_class isName.1 (show isNameStart '@' = false by decide)

/-- A value is a piece of its own, and its directives are left out. -/
theorem pieces_value (v : EnumValue) {rest : List Char}
    (hr : Stops (fun c => !isSeparator c) rest) :
    (piecesWhere isSeparator (Item.text .cleaned v ++ rest)).filter isValue =
      v.name.chars :: (piecesWhere isSeparator rest).filter isValue := by
  have hname : ∀ c ∈ v.name.chars, isSeparator c = false := fun c hc =>
    isSeparator_of_isNameChar (isNameChar_of_mem v.name.isName hc)
  have hne : v.name.chars ≠ [] := by
    intro h
    have := v.name.isName
    rw [h] at this
    exact this
  have hds : (v.directives.map fun d => '@' :: d.name.chars).filter isValue = [] := by
    rw [List.filter_eq_nil_iff]
    intro piece hp
    obtain ⟨d, -, rfl⟩ := List.mem_map.1 hp
    simp [isValue]
  have hstop := stops_directives (p := fun c => !isSeparator c)
    (fun c hc => by rw [isSeparator_of_isBlank hc]; rfl) v.directives hr
  simp only [Item.text, List.append_assoc]
  rw [piecesWhere_word hne hname hstop,
    piecesWhere_directives (fun _ => isSeparator_of_isBlank) (fun _ => isSeparator_of_isNameChar)
      (by decide) hr,
    List.filter_cons_of_pos (isValue_name v.name), List.filter_append, hds, List.nil_append]

/-- An entry makes one piece that is kept, its name. -/
theorem pieces_entry (e : Entry EnumValue) {rest : List Char}
    (hr : Stops (fun c => !isSeparator c) (e.after.text .cleaned ++ rest)) :
    (piecesWhere isSeparator (e.text .cleaned ++ rest)).filter isValue =
      e.item.name.chars :: (piecesWhere isSeparator rest).filter isValue := by
  rw [Entry.text, List.append_assoc, pieces_value e.item hr,
    piecesWhere_separators fun c hc => isSeparator_of_mem_margin hc]

/-- The entries of an enumeration make a piece each, since the margin between two of them has a
separator in it. -/
theorem pieces_entries : ∀ {entries : List (Entry EnumValue)},
    (entries.IsChain fun a _ => a.after.marks ≠ []) →
    (piecesWhere isSeparator (entries.flatMap (Entry.text .cleaned))).filter isValue =
      entries.map fun e => e.item.name.chars
  | [], _ => rfl
  | [e], _ => by
      have hstop : Stops (fun c => !isSeparator c) (e.after.text .cleaned ++ []) :=
        stops_append (fun c hc => by rw [isSeparator_of_mem_margin hc]; rfl) (stops_nil _)
      rw [List.flatMap_cons, List.flatMap_nil, pieces_entry e hstop]
      rfl
  | e :: next :: entries, separated => by
      rw [List.isChain_cons_cons] at separated
      have ih := pieces_entries separated.2
      have hstop : ∀ rest, Stops (fun c => !isSeparator c) (e.after.text .cleaned ++ rest) := by
        intro rest
        cases he : e.after.text .cleaned with
        | nil => exact absurd he (text_margin_ne_nil separated.1)
        | cons c cs =>
          have hmem : c ∈ e.after.text .cleaned := he ▸ List.mem_cons_self
          refine stops_cons ?_ (cs ++ rest)
          rw [isSeparator_of_mem_margin hmem]
          rfl
      rw [List.flatMap_cons, pieces_entry e (hstop _), ih]
      rfl

/-- The values of an enum are found without their directives. -/
theorem enumValues_items (values : Items EnumValue) :
    enumValues (values.text .cleaned) = values.list.map fun v => v.name.string := by
  have h := pieces_entries values.separated
  rw [enumValues]
  change ((piecesWhere isSeparator (values.text .cleaned)).filter isValue).map String.ofList = _
  rw [Items.text, piecesWhere_separators (fun c hc => isSeparator_of_mem_margin hc), h,
    Items.list, List.map_map, List.map_map]
  rfl

/-! ## Headers

A header is asked one thing, whether the model directive is a word of it.  The names of interfaces
are words of it as well, but none begins with an at sign. -/

/-- Directives in a header begin with white space, so they are words of their own. -/
theorem words_append_directives (s : List Char) (ds : List Directive) :
    words (s ++ directivesText .cleaned ds) = words s ++ words (directivesText .cleaned ds) := by
  cases hd : directivesText .cleaned ds with
  | nil =>
    rw [List.append_nil]
    exact (List.append_nil _).symm
  | cons c cs =>
    have hstop := stops_directives (p := fun c => !isBlank c) (fun c hc => by rw [hc]; rfl) ds
      (stops_nil _)
    rw [List.append_nil, hd] at hstop
    have hc : isBlank c = true := by simpa using hstop c rfl
    rw [words, piecesWhere_append_cons hc, words, words, piecesWhere_separator hc]

/-- **The model directive is found in a header just if it is one of the directives.**  What else is
in the header, the interfaces, has no at sign in it. -/
theorem isModelHeader_header (d : Definition) :
    isModelHeader (d.header .cleaned) =
      (directiveNames d.directives).contains modelDirective := by
  have hword : '@' :: modelDirective.toList ∉
      words ((d.body.interfaces.map (·.text .cleaned)).getD []) := by
    intro hw
    have hat := forall_mem_of_mem_piecesWhere hw '@' List.mem_cons_self
    cases hi : d.body.interfaces with
    | none => rw [hi] at hat; simp at hat
    | some is =>
      rw [hi] at hat
      rcases mem_interfaces hat with h | h | h
      · exact absurd h (by decide)
      · exact absurd h (by decide)
      · exact absurd h (by decide)
  rw [isModelHeader, Definition.header, words_append_blanks (fun _ => isBlank_of_mem_gap),
    words_append_directives, words_directives, Bool.eq_iff_iff]
  simp only [List.contains_iff_mem, List.mem_append, hword, false_or, directiveNames,
    List.mem_map, List.cons.injEq, true_and, Name.string]
  refine exists_congr fun directive => and_congr_right fun _ => ⟨fun h => ?_, fun h => ?_⟩
  · rw [h, String.ofList_toList]
  · rw [← h, String.toList_ofList]

/-! ## Definitions and schemas

A definition is found as one block.  Its parts end where they were written to end, because no brace
is in a cleaned header or body. -/

/-- The name of a definition is not made longer by what stands behind it. -/
theorem stops_header (d : Definition) (rest : List Char) :
    Stops isNameChar (d.header .cleaned ++ '\x7b' :: rest) := by
  have hds := stops_directives (fun _ => isNameChar_of_isBlank) d.directives
    (stops_gap (fun _ => isNameChar_of_isBlank) d.beforeBody
      (stops_cons (by decide) rest : Stops isNameChar ('\x7b' :: rest)))
  simp only [Definition.header, List.append_assoc]
  cases d.body.interfaces with
  | none => exact hds
  | some is =>
    simp only [Option.map_some, Option.getD_some, Interfaces.text, List.append_assoc]
    exact stops_space (fun _ => isNameChar_of_isBlank) is.before _

def Definition.block (d : Definition) : Block :=
  ⟨d.body.keyword, d.name.chars, d.header .cleaned, d.body.text .cleaned⟩

/-- A definition is found at its keyword as one block, and the search goes on behind it. -/
theorem block?_definition (d : Definition) (rest : List Char) :
    block? (d.text .cleaned ++ rest) = some (d.block, rest) := by
  simp only [Definition.text, List.append_assoc, List.cons_append, List.nil_append]
  exact block?_append (keyword?_append d.body.keyword) (text_space_ne_nil d.before)
    (fun _ => isBlank_of_mem_space) d.name.isName (stops_header d _)
    (fun _ => isPlain_of_mem_header) fun _ => isPlain_of_mem_body

/-- **The block of a definition reads as what is defined.**  One case for each kind of body. -/
theorem reads_definition (d : Definition) : d.block.Reads d.definition := by
  have hmodel := isModelHeader_header d
  obtain ⟨before, name, directives, beforeBody, body⟩ := d
  cases body with
  | object interfaces fields => exact .object hmodel (reads_fields fields)
  | interface interfaces fields => exact .other
  | input fields => exact .input (readsTyped_fields fields)
  | enum values => exact .enum (enumValues_items values)

theorem isWord_of_mem_margin {margin : Margin} {c : Char} (h : c ∈ margin.text .cleaned) :
    isWord c = false := by
  rcases mem_run h with h | h
  · exact isWord_of_isBlank h
  · rw [beq_iff_eq.1 h]; decide

/-- The blocks of a cleaned schema are those of its definitions.  Between two of them there are only
separators, in which no word begins. -/
theorem blocks_schema (s : Schema) :
    blocks (s.text .cleaned) = s.parts.map fun part => part.2.block := by
  obtain ⟨parts, last, ending⟩ := s
  rw [blocks, Schema.text]
  simp only
  induction parts with
  | nil =>
    have hlast : blocksFrom false (last.text .cleaned ++ []) = blocksFrom false [] :=
      blocksFrom_between fun c hc => isWord_of_mem_margin hc
    rw [List.append_nil, blocksFrom] at hlast
    exact hlast
  | cons part parts ih =>
    simp only [List.flatMap_cons, List.append_assoc] at ih ⊢
    rw [blocksFrom_between fun c hc => isWord_of_mem_margin hc,
      blocksFrom_of_some (block?_definition part.2 _), ih, List.map_cons]

theorem reads_schema (s : Schema) :
    List.Forall₂ Block.Reads (blocks (clean s.print.toList)) s.definitions := by
  rw [Schema.print, String.toList_ofList, clean_schema, blocks_schema, Schema.definitions,
    List.forall₂_map_left_iff, List.forall₂_map_right_iff, List.forall₂_same]
  exact fun part _ => reads_definition part.2

/-- **However two schemas are laid out, their view is the view of what they define.**
`clean_schema` says what is left of a layout, `reads_schema` that its blocks read as the
definitions, and `view_eq_of_reads` that nothing else matters. -/
theorem view_print (source build : Schema) :
    Loose.view source.print build.print =
      Document.view source.definitions build.definitions :=
  view_eq_of_reads (reads_schema source) (reads_schema build)

end SchemaAccess.Layout
