import SchemaAccess.Document.Grammar
import SchemaAccess.Proofs.Document.Spelling

/-!
# Readers on the tokens of what they read

Every reader is run on the tokens of the construct it reads, with anything behind them that does
not continue the construct.  It returns the construct and leaves what is behind.

* `Reader.bind_ok` — one step of a reader; with it no proof opens the reader's monad.
* `many_flatMap`, `optionalItems_flatMap` — lists of items.
* `Ends` — what may stand behind an item.
* `typeRef_tokens`, `directives_tokens`, `typedName_tokens`, `field_tokens` — the constructs.
* `Definition.HasBody` — the definitions that have tokens: types, inputs and enums that are not
  empty.
* `document_tokens`, `parse_spells` — a whole document.
-/

namespace SchemaAccess.Document

/-! ## Combining readers

A reader is run on a list of tokens whose front is known and whose rest is not.  The lemmas of this
section say what the combinators do there, so that a construct is read by rewriting with the laws of
its parts. -/

/-- After a step that succeeds the reader goes on with what the step left. -/
theorem Reader.bind_ok {α β : Type} {x : Reader α} {f : α → Reader β} {s rest : List Token} {a : α}
    (h : x s = .ok (a, rest)) : (x >>= f) s = f a rest := by
  simp only [bind, StateT.bind, h, Except.bind]

/-- What is optional is passed over if its first token is not there. -/
theorem ifNext_of_false {α : Type} {p : Token → Bool} {reader : Reader α} {otherwise : α}
    {s : List Token} (h : s.head?.any p = false) :
    ifNext p reader otherwise s = .ok (otherwise, s) := by
  cases s with
  | nil => rfl
  | cons t s =>
    rw [List.head?_cons, Option.any_some] at h
    simp only [ifNext, h, Bool.false_eq_true, if_false]

/-- What is optional is read if its first token is there. -/
theorem ifNext_of_true {α : Type} {p : Token → Bool} {reader : Reader α} {otherwise : α}
    {t : Token} {s : List Token} (h : p t = true) :
    ifNext p reader otherwise (t :: s) = reader (t :: s) := by
  simp only [ifNext, h, if_true]

theorem many_of_false {α : Type} {begins : Token → Bool} {item : Reader α} {s : List Token}
    (h : s.head?.any begins = false) : many begins item s = .ok ([], s) := by
  rw [many, h]
  rfl

section Many

variable {α β : Type} {begins : Token → Bool} {item : Reader β} {tokens : α → List Token}
  {f : α → β} {P : List Token → Prop} {rest : List Token}

/-- **Items are read one by one.**  An item is read if something of `P` is behind it, which the
tokens of the next item always are, and `rest` is by hypothesis.  The reader stops in front of
`rest` because no item begins there. -/
theorem many_flatMap {as : List α}
    (hitem : ∀ a ∈ as, ∀ rest, P rest → item (tokens a ++ rest) = .ok (f a, rest))
    (hbegins : ∀ a ∈ as, ∃ t more, tokens a = t :: more ∧ begins t = true)
    (hnext : ∀ a ∈ as, ∀ rest, P (tokens a ++ rest)) (hrest : P rest)
    (hstop : rest.head?.any begins = false) :
    many begins item (as.flatMap tokens ++ rest) = .ok (as.map f, rest) := by
  induction as with
  | nil => exact many_of_false hstop
  | cons a as ih =>
    obtain ⟨t, more, ht, hb⟩ := hbegins a List.mem_cons_self
    have ih := ih (fun b hb => hitem b (List.mem_cons_of_mem a hb))
      (fun b hb => hbegins b (List.mem_cons_of_mem a hb))
      (fun b hb => hnext b (List.mem_cons_of_mem a hb))
    have hP : P (as.flatMap tokens ++ rest) := by
      cases as with
      | nil => exact hrest
      | cons b bs =>
        rw [List.flatMap_cons, List.append_assoc]
        exact hnext b (List.mem_cons_of_mem a List.mem_cons_self) _
    have hread := hitem a List.mem_cons_self _ hP
    rw [ht, List.cons_append] at hread
    rw [List.flatMap_cons, ht, List.append_assoc, List.cons_append, many, List.head?_cons,
      Option.any_some, hb, if_pos rfl, hread]
    simp only
    rw [if_pos (by simp only [List.length_cons, List.length_append]; omega), ih]
    rfl

/-- A list of items that is not empty, read by a reader for at least one. -/
theorem many1_flatMap {a : α} {as : List α}
    (hitem : ∀ b ∈ a :: as, ∀ rest, P rest → item (tokens b ++ rest) = .ok (f b, rest))
    (hbegins : ∀ b ∈ a :: as, ∃ t more, tokens b = t :: more ∧ begins t = true)
    (hnext : ∀ b ∈ a :: as, ∀ rest, P (tokens b ++ rest)) (hrest : P rest)
    (hstop : rest.head?.any begins = false) :
    many1 begins item ((a :: as).flatMap tokens ++ rest) = .ok ((a :: as).map f, rest) := by
  have hP : P (as.flatMap tokens ++ rest) := by
    cases as with
    | nil => exact hrest
    | cons b bs =>
      rw [List.flatMap_cons, List.append_assoc]
      exact hnext b (List.mem_cons_of_mem a List.mem_cons_self) _
  have hmany := many_flatMap (fun b hb => hitem b (List.mem_cons_of_mem a hb))
    (fun b hb => hbegins b (List.mem_cons_of_mem a hb))
    (fun b hb => hnext b (List.mem_cons_of_mem a hb)) hrest hstop
  rw [List.flatMap_cons, List.append_assoc, many1,
    Reader.bind_ok (hitem a List.mem_cons_self _ hP), Reader.bind_ok hmany]
  rfl

/-- Items between an opening and a closing mark, at least one, as the grammar demands of arguments
and bodies. -/
theorem optionalItems_flatMap {opening closing : Char} {a : α} {as : List α}
    (hitem : ∀ b ∈ a :: as, ∀ rest, P rest → item (tokens b ++ rest) = .ok (f b, rest))
    (hbegins : ∀ b ∈ a :: as, ∃ t more, tokens b = t :: more ∧ beginsDescribed t = true)
    (hnext : ∀ b ∈ a :: as, ∀ rest, P (tokens b ++ rest))
    (hrest : P (.punct closing :: rest)) :
    optionalItems opening closing item
      (.punct opening :: ((a :: as).flatMap tokens ++ .punct closing :: rest)) =
      .ok ((a :: as).map f, rest) := by
  have hopen : ∀ s, punct opening (.punct opening :: s) = .ok ((), s) := fun s => by
    simp only [punct, if_true]
  have hclose : punct closing (.punct closing :: rest) = .ok ((), rest) := by
    simp only [punct, if_true]
  rw [optionalItems, ifNext_of_true (by simp [isPunct]), Reader.bind_ok (hopen _),
    Reader.bind_ok (many1_flatMap hitem hbegins hnext hrest (by simp [beginsDescribed, isName,
      isString])), Reader.bind_ok hclose]
  rfl

end Many

/-! ## Types

The tokens of a type are a tree flattened from the inside: brackets open in front of the name and
close behind it.  So the reader keeps count of the open lists, and its law is stated for any number
of them. -/

/-- A closing bracket makes a list of what was read, required if an exclamation mark is behind
it. -/
theorem closeLists_mark (lists : Nat) (t : TypeRef) (required : Bool) {rest : List Token}
    (h : rest.head? ≠ some (.punct '!')) :
    closeLists (lists + 1) t (.punct ']' :: (markTokens required ++ rest)) =
      closeLists lists (.list t required) rest := by
  cases required with
  | true => rfl
  | false =>
    rw [markTokens, if_neg Bool.false_ne_true, List.nil_append, closeLists]
    rintro rest rfl
    exact h rfl

/-- A type inside open lists is read, and then the lists are closed.  By induction on the type: a
list opens one more, and its own bracket closes it. -/
theorem typeIn_tokens {t : TypeRef} (lists : Nat) {rest : List Token}
    (h : rest.head? ≠ some (.punct '!')) :
    typeIn lists (typeTokens t ++ rest) = closeLists lists t rest := by
  induction t generalizing lists rest with
  | named n required =>
    cases required with
    | true => rfl
    | false =>
      change typeIn lists (.name n :: rest) = _
      rw [typeIn]
      rintro rest rfl
      exact h rfl
  | list element required ih =>
    rw [typeTokens, List.append_assoc, List.cons_append, List.cons_append, typeIn,
      ih (lists + 1) (by simp), closeLists_mark lists element required h]

/-- **A type is read from its tokens** if no exclamation mark is behind them, which would make it
required. -/
theorem typeRef_tokens (t : TypeRef) {rest : List Token} (h : rest.head? ≠ some (.punct '!')) :
    typeRef (typeTokens t ++ rest) = .ok (t, rest) := typeIn_tokens 0 h

/-! ## Directives

The directives of a definition or a field, here without arguments. -/

def directiveTokens (ds : List String) : List Token :=
  ds.flatMap fun d => [.punct '@', .name d]

/-- A directive is read if no argument list is behind it. -/
theorem directive_tokens (d : String) {rest : List Token} (h : rest.head? ≠ some (.punct '(')) :
    directive ([.punct '@', .name d] ++ rest) = .ok (d, rest) := by
  have hat : punct '@' (.punct '@' :: .name d :: rest) = .ok ((), .name d :: rest) := rfl
  have hname : name (.name d :: rest) = .ok (d, rest) := rfl
  have hlist : rest.head?.any (isPunct '(') = false := by
    cases rest with
    | nil => rfl
    | cons t ts => simpa [isPunct] using h
  change directive (.punct '@' :: .name d :: rest) = _
  rw [directive, Reader.bind_ok hat, Reader.bind_ok hname, Reader.bind_ok (ifNext_of_false hlist)]
  rfl

/-- Directives are read if neither another one nor an argument list is behind them. -/
theorem directives_tokens (ds : List String) {rest : List Token}
    (hat : rest.head? ≠ some (.punct '@')) (hlist : rest.head? ≠ some (.punct '(')) :
    directives (directiveTokens ds ++ rest) = .ok (ds, rest) := by
  have hstop : rest.head?.any (isPunct '@') = false := by
    cases rest with
    | nil => rfl
    | cons t ts => simpa [isPunct] using hat
  have h : directives (directiveTokens ds ++ rest) = .ok (ds.map id, rest) :=
    many_flatMap (P := fun s => s.head? ≠ some (.punct '('))
      (fun d _ _ hr => directive_tokens d hr) (fun d _ => ⟨_, _, rfl, rfl⟩)
      (fun d _ _ => by simp) hlist hstop
  rw [List.map_id] at h
  exact h

/-! ## Items

Arguments, fields and values are all read in front of the name of the next item or of the mark that
closes the list.  `Ends` says this of what is behind, and from it follows everything that the
readers of items look ahead for. -/

/-- What may stand behind an item: the name of the next one, or a closing bracket. -/
def Ends (rest : List Token) : Prop :=
  ∃ t ts, rest = t :: ts ∧ (isName t = true ∨ t = .punct ')' ∨ t = .punct '\x7d')

/-- Behind an item stands neither an at sign nor a parenthesis nor any other mark that could
continue it. -/
theorem Ends.head_ne {rest : List Token} (h : Ends rest) {c : Char}
    (hc : c ≠ ')' ∧ c ≠ '\x7d') : rest.head? ≠ some (.punct c) := by
  obtain ⟨t, ts, rfl, ht⟩ := h
  intro he
  rw [List.head?_cons, Option.some.injEq] at he
  subst he
  rcases ht with ht | ht | ht
  · cases ht
  · exact hc.1 (Token.punct.inj ht)
  · exact hc.2 (Token.punct.inj ht)

theorem ends_name (n : String) (rest : List Token) : Ends (.name n :: rest) :=
  ⟨_, _, rfl, Or.inl rfl⟩

/-- A mark that closes a list may stand behind an item. -/
theorem ends_closing {c : Char} (h : c = ')' ∨ c = '\x7d') (rest : List Token) :
    Ends (.punct c :: rest) := by
  refine ⟨_, _, rfl, Or.inr ?_⟩
  rcases h with rfl | rfl
  · exact Or.inl rfl
  · exact Or.inr rfl

/-- The same, as the test that the readers make. -/
theorem Ends.any_isPunct {rest : List Token} (h : Ends rest) {c : Char}
    (hc : c ≠ ')' ∧ c ≠ '\x7d') : rest.head?.any (isPunct c) = false := by
  have := h.head_ne hc
  obtain ⟨t, ts, rfl, -⟩ := h
  simpa [isPunct] using this

/-- A name needs no description before it. -/
theorem description_name (n : String) (rest : List Token) :
    description (.name n :: rest) = .ok ((), .name n :: rest) := rfl

theorem name_name (n : String) (rest : List Token) : name (.name n :: rest) = .ok (n, rest) := rfl

theorem punct_punct (c : Char) (rest : List Token) :
    punct c (.punct c :: rest) = .ok ((), rest) := by
  simp only [punct, if_true]

def typedNameTokens (entry : TypedName) : List Token :=
  .name entry.1 :: .punct ':' :: typeTokens entry.2

/-- A name with a type is read from its tokens: the name, the colon, the type, and no default value
behind it. -/
theorem typedName_tokens (entry : TypedName) {rest : List Token} (h : Ends rest) :
    typedName (typedNameTokens entry ++ rest) = .ok (entry, rest) := by
  have htype := typeRef_tokens entry.2 (h.head_ne (by decide))
  have hds : directives rest = .ok ([], rest) :=
    directives_tokens [] (h.head_ne (by decide)) (h.head_ne (by decide))
  rw [typedNameTokens, List.cons_append, List.cons_append, typedName,
    Reader.bind_ok (description_name _ _), Reader.bind_ok (name_name _ _),
    Reader.bind_ok (punct_punct _ _), Reader.bind_ok htype,
    Reader.bind_ok (ifNext_of_false (h.any_isPunct (by decide))), Reader.bind_ok hds]
  rfl

def argumentTokens : List TypedName → List Token
  | [] => []
  | entry :: entries =>
    .punct '(' :: ((entry :: entries).flatMap typedNameTokens ++ [.punct ')'])

/-- The arguments of a field are read, or found to be missing, in front of the colon. -/
theorem arguments_tokens (entries : List TypedName) (rest : List Token) :
    arguments (argumentTokens entries ++ .punct ':' :: rest) =
      .ok (entries, .punct ':' :: rest) := by
  cases entries with
  | nil => rfl
  | cons entry entries =>
    have h : arguments (.punct '(' :: ((entry :: entries).flatMap typedNameTokens ++
        .punct ')' :: .punct ':' :: rest)) =
        .ok ((entry :: entries).map id, .punct ':' :: rest) :=
      optionalItems_flatMap (P := Ends) (fun _ _ _ hr => typedName_tokens _ hr)
        (fun _ _ => ⟨_, _, rfl, rfl⟩) (fun _ _ _ => ends_name _ _) (ends_closing (Or.inl rfl) _)
    rw [List.map_id] at h
    rw [argumentTokens, List.cons_append, List.append_assoc]
    exact h

def fieldTokens (f : FieldDefinition) : List Token :=
  .name f.name :: argumentTokens f.arguments ++ .punct ':' :: typeTokens f.type ++
    directiveTokens f.directives

/-- **A field is read from its tokens**, with its arguments, its type and its directives. -/
theorem field_tokens (f : FieldDefinition) {rest : List Token} (h : Ends rest) :
    field (fieldTokens f ++ rest) = .ok (f, rest) := by
  have hds := directives_tokens f.directives (h.head_ne (by decide)) (h.head_ne (by decide))
  have hmark : (directiveTokens f.directives ++ rest).head? ≠ some (.punct '!') := by
    cases f.directives with
    | nil => exact h.head_ne (by decide)
    | cons d ds => simp [directiveTokens]
  have htype := typeRef_tokens f.type hmark
  simp only [fieldTokens, List.append_assoc, List.cons_append]
  rw [field, Reader.bind_ok (description_name _ _), Reader.bind_ok (name_name _ _),
    Reader.bind_ok (arguments_tokens f.arguments _), Reader.bind_ok (punct_punct _ _),
    Reader.bind_ok htype, Reader.bind_ok hds]
  rfl

theorem enumValue_tokens (value : String) {rest : List Token} (h : Ends rest) :
    enumValue ([.name value] ++ rest) = .ok (value, rest) := by
  have hds : directives rest = .ok ([], rest) :=
    directives_tokens [] (h.head_ne (by decide)) (h.head_ne (by decide))
  change enumValue (.name value :: rest) = _
  rw [enumValue, Reader.bind_ok (description_name _ _), Reader.bind_ok (name_name _ _),
    Reader.bind_ok hds]
  rfl

/-! ## Definitions

Only definitions with a body are treated, since an empty body has no text in the grammar.  Each kind
is read by its keyword; the body between braces is read by one lemma for all kinds. -/

/-- A type, input or enum that is not empty. -/
def Definition.HasBody : Definition → Prop
  | .object _ _ fields => fields ≠ []
  | .input _ fields => fields ≠ []
  | .enum _ values => values ≠ []
  | _ => False

def definitionTokens : Definition → List Token
  | .object n ds fields =>
    .name "type" :: .name n :: (directiveTokens ds ++
      .punct '\x7b' :: (fields.flatMap fieldTokens ++ [.punct '\x7d']))
  | .input n fields =>
    .name "input" :: .name n :: .punct '\x7b' ::
      (fields.flatMap typedNameTokens ++ [.punct '\x7d'])
  | .enum n values =>
    .name "enum" :: .name n :: .punct '\x7b' ::
      (values.flatMap (fun v => [.name v]) ++ [.punct '\x7d'])
  | _ => []

/-- A body is read item by item, for items that begin with a name. -/
theorem braces_flatMap {α β : Type} {item : Reader β} {tokens : α → List Token} {f : α → β}
    {as : List α} (hne : as ≠ []) (rest : List Token)
    (hitem : ∀ a ∈ as, ∀ rest, Ends rest → item (tokens a ++ rest) = .ok (f a, rest))
    (hname : ∀ a ∈ as, ∃ n more, tokens a = .name n :: more) :
    optionalItems '\x7b' '\x7d' item
      (.punct '\x7b' :: (as.flatMap tokens ++ .punct '\x7d' :: rest)) =
      .ok (as.map f, rest) := by
  cases as with
  | nil => exact absurd rfl hne
  | cons a as =>
    refine optionalItems_flatMap (P := Ends) hitem (fun b hb => ?_) (fun b hb rest => ?_)
      (ends_closing (Or.inr rfl) rest)
    · obtain ⟨n, more, hn⟩ := hname b hb
      exact ⟨_, more, hn, rfl⟩
    · obtain ⟨n, more, hn⟩ := hname b hb
      rw [hn, List.cons_append]
      exact ends_name n _

/-- In front of directives no interfaces are read. -/
theorem interfaces_directives (ds : List String) (rest : List Token) :
    interfaces (directiveTokens ds ++ .punct '\x7b' :: rest) =
      .ok ([], directiveTokens ds ++ .punct '\x7b' :: rest) := by
  cases ds with
  | nil => rfl
  | cons d ds => rfl

/-- Directives are read up to the brace of the body. -/
theorem directives_brace (ds : List String) (rest : List Token) :
    directives (directiveTokens ds ++ .punct '\x7b' :: rest) = .ok (ds, .punct '\x7b' :: rest) :=
  directives_tokens ds (by simp) (by simp)

theorem directives_none (rest : List Token) :
    directives (.punct '\x7b' :: rest) = .ok ([], .punct '\x7b' :: rest) := directives_brace [] rest

/-- An object type is read: its keyword, its name, no interfaces, its directives and its fields. -/
theorem typeDefinition_object (n : String) (ds : List String) {fs : List FieldDefinition}
    (h : fs ≠ []) (rest : List Token) :
    typeDefinition (definitionTokens (.object n ds fs) ++ rest) =
      .ok ((.object n ds fs, true), rest) := by
  have hfields : fields (.punct '\x7b' :: (fs.flatMap fieldTokens ++ .punct '\x7d' :: rest)) =
      .ok (fs.map id, rest) :=
    braces_flatMap h rest (fun f _ _ hr => field_tokens f hr) fun f _ => ⟨_, _, rfl⟩
  simp only [definitionTokens, List.cons_append, List.append_assoc, List.nil_append]
  rw [typeDefinition, Reader.bind_ok (name_name _ _), Reader.bind_ok (interfaces_directives _ _),
    Reader.bind_ok (directives_brace _ _), Reader.bind_ok hfields, List.map_id,
    List.isEmpty_eq_false_iff.2 h, Bool.and_false]
  rfl

/-- An input type is read. -/
theorem typeDefinition_input (n : String) {entries : List TypedName} (h : entries ≠ [])
    (rest : List Token) :
    typeDefinition (definitionTokens (.input n entries) ++ rest) =
      .ok ((.input n entries, true), rest) := by
  have hfields : optionalItems '\x7b' '\x7d' typedName
      (.punct '\x7b' :: (entries.flatMap typedNameTokens ++ .punct '\x7d' :: rest)) =
      .ok (entries.map id, rest) :=
    braces_flatMap h rest (fun entry _ _ hr => typedName_tokens entry hr) fun entry _ =>
      ⟨_, _, rfl⟩
  simp only [definitionTokens, List.cons_append, List.append_assoc, List.nil_append]
  rw [typeDefinition, Reader.bind_ok (name_name _ _), Reader.bind_ok (directives_none _),
    Reader.bind_ok hfields, List.map_id, List.isEmpty_eq_false_iff.2 h, Bool.and_false]
  rfl

/-- An enumeration is read. -/
theorem typeDefinition_enum (n : String) {values : List String} (h : values ≠ [])
    (rest : List Token) :
    typeDefinition (definitionTokens (.enum n values) ++ rest) =
      .ok ((.enum n values, true), rest) := by
  have hvalues : optionalItems '\x7b' '\x7d' enumValue
      (.punct '\x7b' :: (values.flatMap (fun v => [.name v]) ++ .punct '\x7d' :: rest)) =
      .ok (values.map id, rest) :=
    braces_flatMap h rest (fun v _ _ hr => enumValue_tokens v hr) fun v _ => ⟨_, _, rfl⟩
  simp only [definitionTokens, List.cons_append, List.append_assoc, List.nil_append]
  rw [typeDefinition, Reader.bind_ok (name_name _ _), Reader.bind_ok (directives_none _),
    Reader.bind_ok hvalues, List.map_id, List.isEmpty_eq_false_iff.2 h, Bool.and_false]
  rfl

/-- **A definition with a body is read from its tokens**, whatever is behind it, because it ends
with the brace that closes the body. -/
theorem definition_tokens {d : Definition} (h : d.HasBody) (rest : List Token) :
    definition (definitionTokens d ++ rest) = .ok (d, rest) := by
  cases d with
  | object n ds fs =>
    have hread := typeDefinition_object n ds h rest
    simp only [definitionTokens, List.cons_append] at hread ⊢
    rw [definition, Reader.bind_ok (description_name _ _)]
    · simp only [hread]
      rfl
    · simp
    · simp
  | input n entries =>
    have hread := typeDefinition_input n h rest
    simp only [definitionTokens, List.cons_append] at hread ⊢
    rw [definition, Reader.bind_ok (description_name _ _)]
    · simp only [hread]
      rfl
    · simp
    · simp
  | enum n values =>
    have hread := typeDefinition_enum n h rest
    simp only [definitionTokens, List.cons_append] at hread ⊢
    rw [definition, Reader.bind_ok (description_name _ _)]
    · simp only [hread]
      rfl
    · simp
    · simp
  | schema query mutation => exact h.elim
  | extendObject n fs => exact h.elim
  | other => exact h.elim

/-! ## Documents -/

/-- **The tokens of a document are read as its definitions**, one by one until no token is left. -/
theorem document_tokens {ds : List Definition} (hne : ds ≠ []) (h : ∀ d ∈ ds, d.HasBody) :
    document (ds.flatMap definitionTokens) = .ok (ds, []) := by
  cases ds with
  | nil => exact absurd rfl hne
  | cons d ds =>
    have hread : document ((d :: ds).flatMap definitionTokens ++ []) =
        .ok ((d :: ds).map id, []) :=
      many1_flatMap (P := fun _ => True) (fun b hb rest _ => definition_tokens (h b hb) rest)
        (fun b hb => by
          have := h b hb
          cases b with
          | object n ds fs => exact ⟨_, _, rfl, rfl⟩
          | input n entries => exact ⟨_, _, rfl, rfl⟩
          | enum n values => exact ⟨_, _, rfl, rfl⟩
          | schema query mutation => exact this.elim
          | extendObject n fs => exact this.elim
          | other => exact this.elim)
        (fun _ _ _ => trivial) trivial rfl
    rw [List.append_nil, List.map_id] at hread
    exact hread

/-- A text that spells the tokens of a document is parsed as its definitions. -/
theorem parse_spells {text : String} {ds : List Definition} (hne : ds ≠ [])
    (h : ∀ d ∈ ds, d.HasBody) (hs : Spells 0 text.toList (ds.flatMap definitionTokens)) :
    parse text = .ok ds := by
  obtain ⟨htokens, hcomplete⟩ := ofTextAt_spells hs .start
  rw [parse, Lexed.ofText, htokens, document_tokens hne h]
  simp only [hcomplete, List.isEmpty_nil, Bool.and_true, if_true]

end SchemaAccess.Document
