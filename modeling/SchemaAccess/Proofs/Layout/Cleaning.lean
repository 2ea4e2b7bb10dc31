import SchemaAccess.Proofs.Loose.CleaningLaws
import SchemaAccess.Proofs.Layout.Syntax

/-!
# Cleaning leaves the cleaned text of a layout

Cleaning goes through a layout node by node.  A node may be cleaned on its own if what follows it
is a seam: it extends no directive name and does not look like the argument list of one.

* `Seam` — what may follow a node.
* `afterString_literal`, `afterGroup_balanced` — a skip ends where the literal or list ends.
* `clean_run`, `clean_directives`, `clean_items` — the parts.
* `clean_schema` — the cleaned text of a schema.
-/

namespace SchemaAccess.Layout

open Text Loose

/-! ## Skipping strings

A string is told by where its skip ends.  An escape counts as one character of it, and a string with
nothing inside is the one case in which the text behind it matters: two more quotes would make it
the beginning of a block string. -/

/-- The characters of a string are passed over: by induction on how they are quoted, an escape in
two steps and any other character in one. -/
theorem afterQuoted_quoted {inside : List Char} (h : Quoted inside) (rest : List Char) :
    afterQuoted (inside ++ rest) = afterQuoted rest := by
  induction h with
  | nil => rfl
  | escape c tail ih => rw [List.cons_append, List.cons_append, afterQuoted, ih]
  | char plain tail ih =>
    obtain ⟨hq, hb, hn⟩ := plain
    rw [List.cons_append, afterQuoted, ih]
    · rintro rfl - ; exact hb rfl
    · rintro c rest rfl - ; exact hb rfl
    · exact hq
    · exact hn

/-- What is quoted does not begin a block string, unless there is nothing and two quotes follow. -/
theorem afterString_of_quoted {inside rest : List Char} (h : Quoted inside)
    (hrest : inside = [] → ¬ ['"', '"'] <+: rest) :
    afterString (inside ++ rest) = afterQuoted rest := by
  rw [← afterQuoted_quoted h]
  refine afterString_of_not_block ?_
  cases h with
  | nil => exact hrest rfl
  | escape c tail => simp
  | char plain tail =>
    rintro ⟨more, hmore⟩
    exact plain.1 (List.cons.inj hmore).1.symm

/-- The first three quotes in a row end a block string. -/
theorem afterBlock_block {inside : List Char} (h : ¬ ['"', '"', '"'] <:+: inside ++ ['"', '"'])
    (rest : List Char) : afterBlock (inside ++ '"' :: '"' :: '"' :: rest) = rest := by
  induction inside with
  | nil => rw [List.nil_append, afterBlock]
  | cons c cs ih =>
    rw [List.cons_append] at h ⊢
    have hcs : ¬ ['"', '"', '"'] <:+: cs ++ ['"', '"'] := fun hi => h (List.infix_cons hi)
    have hc : ¬ ['"', '"', '"'] <+: c :: (cs ++ '"' :: '"' :: '"' :: rest) := by
      intro hp
      refine h (List.IsPrefix.isInfix ?_)
      have hshort : c :: (cs ++ ['"', '"']) <+: c :: (cs ++ '"' :: '"' :: '"' :: rest) :=
        ⟨'"' :: rest, by simp⟩
      exact List.prefix_of_prefix_length_le hp hshort (by simp)
    rw [afterBlock_cons hc, ih hcs]

/-- **Skipping a literal ends behind it**, whether it is a string or a block string.  The hypothesis
is about the empty string alone, behind which a quote would be read as part of the literal. -/
theorem afterString_literal (l : Literal) {rest : List Char}
    (h : l.isEmptyString = true → rest.head? ≠ some '"') :
    afterString (l.afterOpening ++ rest) = rest := by
  cases l with
  | block inside isOpen =>
    rw [Literal.afterOpening, List.append_assoc, List.cons_append, List.cons_append, afterString]
    exact afterBlock_block isOpen rest
  | quoted inside isQuoted =>
    rw [Literal.afterOpening, List.append_assoc, List.cons_append, List.nil_append,
      afterString_of_quoted isQuoted, afterQuoted]
    rintro hempty ⟨more, hmore⟩
    exact h (List.isEmpty_iff.2 hempty) (by rw [← (List.cons.inj hmore).2]; rfl)

/-! ## Skipping argument lists

The argument list of a directive is balanced text between parentheses, possibly with strings in it.
The skip counts the parentheses that are open, so the lemma about it is stated for any count. -/

/-- A character that is neither a quote nor a parenthesis leaves the count as it is. -/
theorem afterGroup_char {c : Char} (h : c ∉ ['"', '(', ')']) (outer : Nat)
    (rest : List Char) : afterGroup outer (c :: rest) = afterGroup outer rest := by
  simp only [List.mem_cons, List.not_mem_nil, or_false, not_or] at h
  rw [afterGroup] <;> simp_all

/-- **A skip of a group passes over balanced text**, at any count of open parentheses.  By induction
on how the text is balanced: a group inside raises the count and brings it back, and a string inside
is passed over by `afterString_literal`. -/
theorem afterGroup_balanced {s : List Char} (h : Balanced s) (outer : Nat) {rest : List Char}
    (hr : rest.head? ≠ some '"') : afterGroup outer (s ++ rest) = afterGroup outer rest := by
  induction h generalizing outer rest with
  | nil => rfl
  | char plain tail ih =>
    have hmarks : ['"', '(', ')'] ⊆ ['"', '#', '(', ')'] := by decide
    rw [List.cons_append, afterGroup_char fun hc => plain (hmarks hc), ih outer hr]
  | @literal l more tail apart ih =>
    have hskip : afterString (l.afterOpening ++ (more ++ rest)) = more ++ rest := by
      refine afterString_literal l fun hl => ?_
      cases more with
      | nil => exact hr
      | cons c cs => exact apart hl
    rw [Literal.text, List.append_assoc, List.cons_append, afterGroup, hskip, ih outer hr]
  | @group inner more inside tail ihInner ihMore =>
    simp only [List.append_assoc, List.cons_append]
    rw [afterGroup, ihInner (outer + 1) (by simp), afterGroup, ihMore outer hr]

/-- The argument list of a directive is passed over. -/
theorem afterArguments?_list (list : ArgumentList) (rest : List Char) :
    afterArguments? (list.text .written ++ rest) = some rest := by
  simp only [ArgumentList.text, List.append_assoc, List.cons_append, List.nil_append]
  rw [afterArguments?_of_blanks list.isBlank, afterGroup_balanced list.isBalanced 0 (by simp),
    afterGroup]

/-! ## Seams

Cleaning a directive looks ahead twice: its name goes on as long as it can, and behind white space
and comments there may be an argument list.  So a node can be cleaned on its own if the text that
follows does neither. -/

/-- What may follow a node: nothing that extends the name of a directive, and no argument list. -/
structure Seam (rest : List Char) : Prop where
  head : Stops isDirectiveChar rest
  noList : NoList rest

/-- A character that is neither white space nor part of a name nor a parenthesis begins a seam. -/
theorem Seam.cons {c : Char} (hc : isDirectiveChar c = false) (hb : isBlank c = false)
    (hp : c ≠ '(') (rest : List Char) : Seam (c :: rest) :=
  ⟨stops_cons hc rest, NoList.cons hb hp rest⟩

/-- A word begins with a name character, so no argument list follows. -/
theorem NoList.name {name : List Char} (h : IsName name) (rest : List Char) :
    NoList (name ++ rest) := by
  cases name with
  | nil => exact h.elim
  | cons c cs =>
    have hc := isNameChar_of_isNameStart h.1
    rw [List.cons_append]
    refine NoList.cons ?_ (ne_of_class hc (by decide)) _
    rw [← Bool.not_eq_true]
    intro hb
    rw [isNameChar_of_isBlank hb] at hc
    cases hc

/-! ## White space and comments

Filler is cleaned on its own whatever follows, since a comment ends with its line.  In front of a
text that begins no argument list it begins none: the search for one passes over white space and
ends at a comment. -/

/-- White space stays, and a comment leaves the line feed that ends it. -/
theorem clean_filler (f : Filler) (rest : List Char) :
    clean (f.text .written ++ rest) = f.text .cleaned ++ clean rest := by
  cases f with
  | blank c isBlank => exact clean_char (isOrdinary_of_isBlank isBlank) rest
  | comment text onLine =>
    rw [Filler.text, List.append_assoc]
    exact clean_comment onLine rest

theorem clean_gap (gap : Gap) (rest : List Char) :
    clean (gap.text .written ++ rest) = gap.text .cleaned ++ clean rest := by
  induction gap with
  | nil => rfl
  | cons f gap ih =>
    simp only [Gap.text, List.flatMap_cons, List.append_assoc] at ih ⊢
    rw [clean_filler, ih]

/-- The same for white space that must be there: its first piece and the gap behind it are cleaned
on their own. -/
theorem clean_space (space : Space) (rest : List Char) :
    clean (space.text .written ++ rest) = space.text .cleaned ++ clean rest := by
  simp only [Space.text, List.append_assoc]
  rw [clean_filler, clean_gap]

/-- Filler in front of a text does not make an argument list of it: white space is passed over, and
a number sign is not a parenthesis. -/
theorem NoList.filler (f : Filler) {rest : List Char} (h : NoList rest) :
    NoList (f.text .written ++ rest) := by
  cases f with
  | blank c isBlank => exact NoList.blank isBlank h
  | comment text onLine => exact NoList.cons (by decide) (by decide) _

theorem NoList.gap (gap : Gap) {rest : List Char} (h : NoList rest) :
    NoList (gap.text .written ++ rest) := by
  induction gap with
  | nil => exact h
  | cons f gap ih =>
    simp only [Gap.text, List.flatMap_cons, List.append_assoc] at ih ⊢
    exact NoList.filler f ih

/-- White space and comments begin a seam whatever follows, unless it is an argument list. -/
theorem Seam.filler (f : Filler) {rest : List Char} (h : NoList rest) :
    Seam (f.text .written ++ rest) := by
  refine ⟨?_, NoList.filler f h⟩
  cases f with
  | blank c isBlank => exact stops_cons (isDirectiveChar_of_isBlank isBlank) rest
  | comment text onLine => exact stops_cons (by decide) _

/-- White space that must be there begins a seam, for it ends every name. -/
theorem Seam.space (space : Space) {rest : List Char} (h : NoList rest) :
    Seam (space.text .written ++ rest) := by
  rw [Space.text, List.append_assoc]
  exact Seam.filler _ (NoList.gap _ h)

/-- A gap may be empty, so in front of a seam it is one only because what follows is. -/
theorem Seam.gap (gap : Gap) {rest : List Char} (h : Seam rest) :
    Seam (gap.text .written ++ rest) := by
  cases gap with
  | nil => exact h
  | cons f gap =>
    rw [Gap.text, List.flatMap_cons, List.append_assoc]
    exact Seam.filler f (NoList.gap gap h.noList)

/-! ## Runs

A run is a list of marks: filler, literals, and characters of some class `p`.  If the class is tame,
no mark begins a comment, a directive or a list, so each is cleaned on its own.  Only between two
literals must one look closer, since the empty string may not be followed by a quote. -/

/-- A class without the characters at which cleaning or the search for an argument list stops. -/
def IsTame (p : Char → Bool) : Prop := ∀ c ∈ ['#', '"', '@', '('], p c = false

/-- Commas are tame, so the margins between items are runs of a tame class. -/
theorem isTame_comma : IsTame (· == ',') := forall_mem_eq_false (by decide)

/-- The characters of values are tame, so default values without braces are runs of a tame class. -/
theorem isTame_isValueChar : IsTame isValueChar := forall_mem_eq_false (by decide)

theorem IsTame.ordinary {p : Char → Bool} (hp : IsTame p) {c : Char} (hc : p c = true) :
    isOrdinary c = true := by
  have hmarks : ['#', '"', '@'] ⊆ ['#', '"', '@', '('] := by decide
  exact isOrdinary_of_class (fun mark hmark => hp mark (hmarks hmark)) hc

/-- A literal leaves one space, by `afterString_literal`. -/
theorem clean_literal (l : Literal) {rest : List Char}
    (h : l.isEmptyString = true → rest.head? ≠ some '"') :
    clean (l.text .written ++ rest) = l.text .cleaned ++ clean rest := by
  rw [Literal.text, List.cons_append, clean_quote, afterString_literal l h]
  rfl

section Runs

variable {p : Char → Bool} {rest : List Char}

/-- A mark is cleaned on its own: filler, a literal or a character, each by its own lemma. -/
theorem clean_mark (hp : IsTame p) {m : Mark} (hm : ∀ c, m = .char c → p c = true)
    (h : m.isEmptyString = true → rest.head? ≠ some '"') :
    clean (m.text .written ++ rest) = m.text .cleaned ++ clean rest := by
  cases m with
  | filler f => exact clean_filler f rest
  | char c => exact clean_char (hp.ordinary (hm c rfl)) rest
  | literal l => exact clean_literal l h

/-- A quote begins nothing but a string. -/
theorem head?_mark (hp : IsTame p) {m : Mark} (hm : ∀ c, m = .char c → p c = true)
    (hl : m.isLiteral = false) : (m.text .written ++ rest).head? ≠ some '"' := by
  cases m with
  | literal l => cases hl
  | char c =>
    have := ne_of_class (hm c rfl) (hp '"' (by simp))
    simpa [Mark.text] using this
  | filler f =>
    cases f with
    | comment text onLine => simp [Mark.text, Filler.text]
    | blank c isBlank =>
      have := ne_of_class isBlank (show Text.isBlank '"' = false by decide)
      simpa [Mark.text, Filler.text] using this

/-- **Every mark is cleaned on its own**, by induction on the marks.  The chain condition says that
an empty string is never followed by a literal, and `head?_mark` that nothing but a literal begins
with a quote. -/
theorem clean_marks (hp : IsTame p) : ∀ {marks : List Mark},
    (∀ c, Mark.char c ∈ marks → p c = true) →
    (marks.IsChain fun a b => a.isEmptyString = true → b.isLiteral = false) →
    (marks.getLast?.any Mark.isEmptyString = true → rest.head? ≠ some '"') →
    clean (marks.flatMap (Mark.text .written) ++ rest) =
      marks.flatMap (Mark.text .cleaned) ++ clean rest
  | [], _, _, _ => rfl
  | [m], allowed, _, ends => by
      simp only [List.flatMap_cons, List.flatMap_nil, List.append_nil]
      exact clean_mark hp (fun c hc => allowed c (by simp [hc])) (by simpa using ends)
  | m :: n :: marks, allowed, apart, ends => by
      rw [List.isChain_cons_cons] at apart
      rw [List.getLast?_cons_cons] at ends
      have ih := clean_marks hp (fun c hc => allowed c (List.mem_cons_of_mem m hc)) apart.2 ends
      have hm : ∀ c, m = .char c → p c = true := fun c hc => allowed c (by simp [hc])
      have hn : ∀ c, n = .char c → p c = true := fun c hc => allowed c (by simp [hc])
      have hquote : m.isEmptyString = true →
          ((n :: marks).flatMap (Mark.text .written) ++ rest).head? ≠ some '"' := by
        intro he
        rw [List.flatMap_cons, List.append_assoc]
        exact head?_mark hp hn (apart.1 he)
      simp only [List.flatMap_cons, List.append_assoc] at ih hquote ⊢
      rw [clean_mark hp hm hquote, ih]

theorem clean_run (hp : IsTame p) (run : Run p)
    (h : run.endsEmpty = true → rest.head? ≠ some '"') :
    clean (run.text .written ++ rest) = run.text .cleaned ++ clean rest :=
  clean_marks hp run.allowed run.apart h

/-- A mark of a tame class does not begin an argument list, since a parenthesis is not tame. -/
theorem NoList.mark (hp : IsTame p) {m : Mark} (hm : ∀ c, m = .char c → p c = true)
    (h : NoList rest) : NoList (m.text .written ++ rest) := by
  cases m with
  | filler f => exact NoList.filler f h
  | literal l => exact NoList.cons (by decide) (by decide) _
  | char c =>
    cases hc : isBlank c with
    | true => exact NoList.blank hc h
    | false => exact NoList.cons hc (ne_of_class (hm c rfl) (hp '(' (by simp))) rest

/-- A run of a tame class in front of a text does not make an argument list of it. -/
theorem NoList.marks (hp : IsTame p) (h : NoList rest) : ∀ {marks : List Mark},
    (∀ c, Mark.char c ∈ marks → p c = true) →
    NoList (marks.flatMap (Mark.text .written) ++ rest)
  | [], _ => h
  | m :: marks, allowed => by
      rw [List.flatMap_cons, List.append_assoc]
      exact NoList.mark hp (fun c hc => allowed c (by simp [hc]))
        (NoList.marks hp h fun c hc => allowed c (List.mem_cons_of_mem m hc))

/-- A margin that is not empty begins a seam. -/
theorem Seam.margin {margin : Margin} (hm : margin.marks ≠ []) (h : NoList rest) :
    Seam (margin.text .written ++ rest) := by
  obtain ⟨marks, allowed, apart⟩ := margin
  cases marks with
  | nil => exact absurd rfl hm
  | cons m marks =>
    have htail := NoList.marks isTame_comma h fun c hc => allowed c (List.mem_cons_of_mem m hc)
    simp only [Run.text, List.flatMap_cons, List.append_assoc]
    cases m with
    | filler f => exact Seam.filler f htail
    | literal l => exact Seam.cons (by decide) (by decide) (by decide) _
    | char c =>
      have hc : c = ',' := by simpa using allowed c List.mem_cons_self
      rw [hc]
      exact Seam.cons (by decide) (by decide) (by decide) _

/-- What follows a list of items begins a seam with any margin before it. -/
theorem Seam.margin_append (margin : Margin) (h : Seam rest) :
    Seam (margin.text .written ++ rest) := by
  by_cases hm : margin.marks = []
  · rwa [Run.text, hm, List.flatMap_nil, List.nil_append]
  · exact Seam.margin hm h.noList

end Runs

/-! ## Words and directives

Names and types are copied.  Of a directive the name is copied and the argument list is left out;
here the look-ahead of `clean` is met by the seam that follows. -/

theorem isOrdinary_of_isNameChar {c : Char} (h : isNameChar c = true) : isOrdinary c = true :=
  isOrdinary_of_class (forall_mem_eq_false (by decide)) h

theorem isOrdinary_of_isTypeChar {c : Char} (h : isTypeChar c = true) : isOrdinary c = true :=
  isOrdinary_of_class (forall_mem_eq_false (by decide)) h

theorem clean_name (name : Name) (rest : List Char) :
    clean (name.chars ++ rest) = name.chars ++ clean rest :=
  clean_append (fun _ hc => isOrdinary_of_isNameChar (isNameChar_of_mem name.isName hc)) rest

theorem clean_type (t : TypeUse) (rest : List Char) :
    clean (t.type.chars ++ rest) = t.type.chars ++ clean rest :=
  clean_append (fun _ hc => isOrdinary_of_isTypeChar (isTypeChar_of_mem t.isName hc)) rest

/-- An argument list ends the name of the directive in front of it. -/
theorem stops_argumentList (list : ArgumentList) (rest : List Char) :
    Stops isDirectiveChar (list.text .written ++ rest) := by
  obtain ⟨before, isBlank, inside, isBalanced⟩ := list
  cases before with
  | nil => exact stops_cons (by decide) _
  | cons c cs => exact stops_cons (isDirectiveChar_of_isBlank (isBlank c List.mem_cons_self)) _

/-- **A directive leaves its name and nothing of its arguments**, if a seam follows.  With an
argument list the skip ends behind it by `afterArguments?_list`; without one, the seam says that
none is found further on. -/
theorem clean_directive_text (d : Directive) {rest : List Char} (h : Seam rest) :
    clean (d.text .written ++ rest) = d.text .cleaned ++ clean rest := by
  obtain ⟨before, name, arguments⟩ := d
  cases arguments with
  | none =>
    simp only [Directive.text, Option.map_none, Option.getD_none, List.append_assoc,
      List.cons_append, List.nil_append]
    rw [clean_space, ← List.cons_append,
      clean_directive name.isName h.head h.noList.afterArguments?, List.cons_append]
  | some list =>
    simp only [Directive.text, Option.map_some, Option.getD_some, List.append_assoc,
      List.cons_append]
    rw [clean_space, ← List.cons_append,
      clean_directive_list name.isName (stops_argumentList list rest)
        (afterArguments?_list list rest)]
    simp only [ArgumentList.text, List.cons_append, List.nil_append]

/-- Directives in front of a seam begin a seam themselves, since each begins with an at sign or with
white space in front of it. -/
theorem Seam.directives (ds : List Directive) {rest : List Char} (h : Seam rest) :
    Seam (directivesText .written ds ++ rest) := by
  cases ds with
  | nil => exact h
  | cons d ds =>
    simp only [directivesText, List.flatMap_cons, Directive.text, List.append_assoc]
    exact Seam.space _ (NoList.cons (by decide) (by decide) _)

/-- Directives are cleaned one by one, from the last one on, each with a seam behind it. -/
theorem clean_directives (ds : List Directive) {rest : List Char} (h : Seam rest) :
    clean (directivesText .written ds ++ rest) = directivesText .cleaned ds ++ clean rest := by
  induction ds with
  | nil => rfl
  | cons d ds ih =>
    have hseam := Seam.directives ds h
    simp only [directivesText, List.flatMap_cons, List.append_assoc] at ih hseam ⊢
    rw [clean_directive_text d hseam, ih]

/-! ## Items

The fields of a type, the values of an enumeration and the arguments of a field are lists of items.
`LawfulItem` says what a list needs of an item, that it begins with a name and is cleaned on its own
in front of a seam; the instances are given below, part by part. -/

/-- A quote does not begin a name. -/
theorem head?_name {name : List Char} (h : IsName name) (rest : List Char) :
    (name ++ rest).head? ≠ some '"' := by
  cases name with
  | nil => exact h.elim
  | cons c cs => simpa using ne_of_class h.1 (show isNameStart '"' = false by decide)

/-- A margin begins with a quote only if it begins with a string. -/
theorem head?_margin {margin : Margin} {rest : List Char} (hm : margin.beginsQuoted = false)
    (h : rest.head? ≠ some '"') : (margin.text .written ++ rest).head? ≠ some '"' := by
  obtain ⟨marks, allowed, apart⟩ := margin
  cases marks with
  | nil => exact h
  | cons m marks =>
    rw [Run.text, List.flatMap_cons, List.append_assoc]
    rw [Run.beginsQuoted, List.head?_cons, Option.any_some] at hm
    exact head?_mark isTame_comma (fun c hc => allowed c (by simp [hc])) hm

/-- An item begins with a name and is cleaned on its own. -/
class LawfulItem (α : Type) [Item α] : Prop where
  text_eq : ∀ (stage : Stage) (a : α), ∃ name tail, IsName name ∧ Item.text stage a = name ++ tail
  clean_text : ∀ (a : α) {rest : List Char}, Seam rest →
    (Item.endsEmpty a = true → rest.head? ≠ some '"') →
    clean (Item.text .written a ++ rest) = Item.text .cleaned a ++ clean rest

section Items

variable {α : Type} [Item α] [LawfulItem α] {rest : List Char}

/-- An entry begins with the name of its item. -/
theorem text_entry_eq (stage : Stage) (e : Entry α) (rest : List Char) :
    ∃ name tail, IsName name ∧ e.text stage ++ rest = name ++ tail := by
  obtain ⟨name, tail, hn, ht⟩ := LawfulItem.text_eq stage e.item
  exact ⟨name, tail ++ (e.after.text stage ++ rest), hn, by
    simp only [Entry.text, ht, List.append_assoc]⟩

/-- An entry is cleaned on its own: the item by the law of its kind, and the margin behind it as a
run. -/
theorem clean_entry (e : Entry α) (h : Seam (e.after.text .written ++ rest))
    (hq : rest.head? ≠ some '"') :
    clean (e.text .written ++ rest) = e.text .cleaned ++ clean rest := by
  simp only [Entry.text, List.append_assoc]
  rw [LawfulItem.clean_text e.item h fun he => head?_margin (e.apart he) hq,
    clean_run isTame_comma e.after fun _ => hq]

/-- Entries are cleaned one by one.  A margin between two of them is not empty, so it begins a seam;
behind the last one stands the seam that follows the list. -/
theorem clean_entries (h : Seam rest) (hq : rest.head? ≠ some '"') :
    ∀ {entries : List (Entry α)}, (entries.IsChain fun a _ => a.after.marks ≠ []) →
      clean (entries.flatMap (Entry.text .written) ++ rest) =
        entries.flatMap (Entry.text .cleaned) ++ clean rest
  | [], _ => rfl
  | [e], _ => by
      simp only [List.flatMap_cons, List.flatMap_nil, List.append_nil]
      exact clean_entry e (Seam.margin_append e.after h) hq
  | e :: next :: entries, separated => by
      rw [List.isChain_cons_cons] at separated
      have ih := clean_entries h hq separated.2
      obtain ⟨name, tail, hn, ht⟩ :=
        text_entry_eq .written next (entries.flatMap (Entry.text .written) ++ rest)
      simp only [List.flatMap_cons, List.append_assoc] at ih ⊢
      rw [clean_entry e, ih]
      · rw [ht]
        exact Seam.margin separated.1 (NoList.name hn tail)
      · rw [ht]
        exact head?_name hn tail

/-- **The items of a list are cleaned one by one**, with the margin in front of the first one
cleaned as a run. -/
theorem clean_items (items : Items α) (h : Seam rest) (hq : rest.head? ≠ some '"') :
    clean (items.text .written ++ rest) = items.text .cleaned ++ clean rest := by
  simp only [Items.text, List.append_assoc]
  rw [clean_run isTame_comma items.before, clean_entries h hq items.separated]
  intro _
  cases items.entries with
  | nil => exact hq
  | cons e entries =>
    obtain ⟨name, tail, hn, ht⟩ :=
      text_entry_eq .written e (entries.flatMap (Entry.text .written) ++ rest)
    rw [List.flatMap_cons, List.append_assoc, ht]
    exact head?_name hn tail

end Items

/-! ## Parts of definitions

Each part is a few nodes with white space between them.  Its law cleans them from left to right, and
each instance of `LawfulItem` is the law of one kind of item. -/

/-- A default value is cleaned as a run behind its equals sign. -/
theorem clean_defaultValue (d : DefaultValue) {rest : List Char}
    (h : d.value.endsEmpty = true → rest.head? ≠ some '"') :
    clean (d.text .written ++ rest) = d.text .cleaned ++ clean rest := by
  simp only [DefaultValue.text, List.append_assoc, List.cons_append]
  rw [clean_gap, clean_char (by decide), clean_run isTame_isValueChar d.value h]

instance : LawfulItem InputValue where
  text_eq stage v := ⟨v.name.chars, _, v.name.isName, by
    simp only [Item.text, List.append_assoc]
    rfl⟩
  clean_text v rest h hq := by
    obtain ⟨name, beforeColon, afterColon, type, defaultValue, directives⟩ := v
    simp only [Item.text, List.append_assoc, List.cons_append]
    rw [clean_name, clean_gap, clean_char (by decide), clean_gap, clean_type]
    cases defaultValue with
    | none =>
      simp only [Option.map_none, Option.getD_none, List.nil_append]
      rw [clean_directives directives h]
    | some d =>
      simp only [Option.map_some, Option.getD_some]
      rw [clean_defaultValue d, clean_directives directives h]
      intro hd
      cases directives with
      | nil => exact hq (by simpa [Item.endsEmpty] using hd)
      | cons directive directives =>
        simp only [directivesText, List.flatMap_cons, Directive.text, Space.text,
          List.append_assoc]
        exact head?_mark (m := .filler directive.before.first) isTame_comma (by simp) rfl

/-- The arguments of a field stand between parentheses, and unlike the argument list of a directive
they are kept. -/
theorem clean_arguments (as : Arguments) (rest : List Char) :
    clean (as.text .written ++ rest) = as.text .cleaned ++ clean rest := by
  simp only [Arguments.text, List.append_assoc, List.cons_append, List.nil_append]
  rw [clean_gap, clean_char (by decide), clean_items, clean_char (by decide)]
  · exact Seam.cons (by decide) (by decide) (by decide) _
  · simp

instance : LawfulItem Field where
  text_eq stage f := ⟨f.name.chars, _, f.name.isName, by
    simp only [Item.text, List.append_assoc]
    rfl⟩
  clean_text f rest h _ := by
    obtain ⟨name, arguments, beforeColon, afterColon, type, directives⟩ := f
    have htail : clean (Gap.text .written beforeColon ++ ':' :: (Gap.text .written afterColon ++
        (type.type.chars ++ (directivesText .written directives ++ rest)))) =
        Gap.text .cleaned beforeColon ++ ':' :: (Gap.text .cleaned afterColon ++
          (type.type.chars ++ (directivesText .cleaned directives ++ clean rest))) := by
      rw [clean_gap, clean_char (by decide), clean_gap, clean_type, clean_directives directives h]
    simp only [Item.text, List.append_assoc, List.cons_append]
    cases arguments with
    | none => rw [clean_name, Option.map_none, Option.getD_none, List.nil_append, htail]; rfl
    | some as =>
      simp only [Option.map_some, Option.getD_some]
      rw [clean_name, clean_arguments, htail]

instance : LawfulItem EnumValue where
  text_eq stage v := ⟨v.name.chars, _, v.name.isName, rfl⟩
  clean_text v rest h _ := by
    simp only [Item.text, List.append_assoc]
    rw [clean_name, clean_directives v.directives h]

/-- An ampersand between two interfaces is copied, with the white space around it. -/
theorem clean_link (link : Link) (rest : List Char) :
    clean (link.text .written ++ rest) = link.text .cleaned ++ clean rest := by
  cases link with
  | space s => exact clean_space s rest
  | ampersand before after =>
    simp only [Link.text, List.append_assoc, List.cons_append]
    rw [clean_gap, clean_char (by decide), clean_gap]

theorem clean_interfaces (is : Interfaces) (rest : List Char) :
    clean (is.text .written ++ rest) = is.text .cleaned ++ clean rest := by
  have hnames : ∀ names : List (Link × Name),
      clean (names.flatMap (fun i => i.1.text .written ++ i.2.chars) ++ rest) =
        names.flatMap (fun i => i.1.text .cleaned ++ i.2.chars) ++ clean rest := by
    intro names
    induction names with
    | nil => rfl
    | cons i names ih =>
      simp only [List.flatMap_cons, List.append_assoc]
      rw [clean_link, clean_name, ih]
  simp only [Interfaces.text, List.append_assoc]
  rw [clean_space, clean_append (List.all_eq_true.1 (by decide)), hnames]

/-! ## Definitions and schemas

A definition is a header, and most kinds have a body between braces behind it.  The definitions of a
schema follow each other with margins between them. -/

/-- The header of a definition is cleaned: its keyword, its name, its interfaces and its directives.
It ends with the directives, so a seam must follow. -/
theorem clean_header (d : Definition) {rest : List Char} (h : Seam rest) :
    clean (d.header .written ++ rest) = d.header .cleaned ++ clean rest := by
  have htail : clean (directivesText .written d.directives ++
      (Gap.text .written d.beforeBody ++ rest)) =
      directivesText .cleaned d.directives ++ (Gap.text .cleaned d.beforeBody ++ clean rest) := by
    rw [clean_directives d.directives (Seam.gap d.beforeBody h), clean_gap]
  simp only [Definition.header, List.append_assoc]
  cases d.body.interfaces with
  | none => rw [Option.map_none, Option.getD_none, List.nil_append, htail]; rfl
  | some is =>
    simp only [Option.map_some, Option.getD_some]
    rw [clean_interfaces, htail]

theorem clean_body (b : Body) {rest : List Char} (h : Seam rest) (hq : rest.head? ≠ some '"') :
    clean (b.text .written ++ rest) = b.text .cleaned ++ clean rest := by
  cases b with
  | object interfaces fields => exact clean_items fields h hq
  | interface interfaces fields => exact clean_items fields h hq
  | input fields => exact clean_items fields h hq
  | enum values => exact clean_items values h hq

/-- A definition is cleaned on its own whatever follows, since it ends with a brace. -/
theorem clean_definition (d : Definition) (rest : List Char) :
    clean (d.text .written ++ rest) = d.text .cleaned ++ clean rest := by
  simp only [Definition.text, List.append_assoc, List.cons_append, List.nil_append]
  rw [clean_name ⟨_, isName_keyword _⟩, clean_space, clean_name, clean_header,
    clean_char (by decide), clean_body, clean_char (by decide)]
  · exact Seam.cons (by decide) (by decide) (by decide) _
  · simp
  · exact Seam.cons (by decide) (by decide) (by decide) _

/-- A definition begins with its keyword, and not with a quote. -/
theorem head?_definition (d : Definition) (rest : List Char) :
    (d.text .written ++ rest).head? ≠ some '"' := by
  simp only [Definition.text, List.append_assoc]
  exact head?_name (isName_keyword _) _

theorem clean_parts : ∀ (parts : List (Margin × Definition)) (rest : List Char),
    clean (parts.flatMap (fun part => part.1.text .written ++ part.2.text .written) ++ rest) =
      parts.flatMap (fun part => part.1.text .cleaned ++ part.2.text .cleaned) ++ clean rest
  | [], _ => rfl
  | (margin, d) :: parts, rest => by
      simp only [List.flatMap_cons, List.append_assoc]
      rw [clean_run isTame_comma margin fun _ => head?_definition d _, clean_definition,
        clean_parts parts rest]

/-- **Cleaning leaves of a schema the cleaned text.**  All laws about what is found in a schema of
any layout begin with this one: they are proved on the cleaned text, in which nothing has to be
skipped. -/
theorem clean_schema (s : Schema) : clean (s.text .written) = s.text .cleaned := by
  obtain ⟨parts, last, ending⟩ := s
  have hlast : ∀ rest : List Char, clean rest = [] → rest.head? ≠ some '"' →
      clean (parts.flatMap (fun part => part.1.text .written ++ part.2.text .written) ++
        (last.text .written ++ rest)) =
      parts.flatMap (fun part => part.1.text .cleaned ++ part.2.text .cleaned) ++
        last.text .cleaned := by
    intro rest hr hq
    rw [clean_parts, clean_run isTame_comma last fun _ => hq, hr, List.append_nil]
  simp only [Schema.text, List.append_assoc]
  cases ending with
  | none => exact hlast [] clean_nil (by simp)
  | some comment => exact hlast _ (clean_lastComment comment.2) (by simp)

end SchemaAccess.Layout
