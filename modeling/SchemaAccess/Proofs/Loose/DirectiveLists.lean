import SchemaAccess.Proofs.Layout.Constants
import SchemaAccess.Proofs.Loose.Headers
import SchemaAccess.Proofs.Loose.Seams

/-!
# Directives with commas or nothing between them

Between the directives of a list may stand white space, comments and commas, or nothing at all.  A
directive is told by its word, so it shows only where white space or an argument list sets it off
from its neighbours: a comma belongs to the word next to it, and without anything between them two
directives make one word.  Behind a field the list is moreover taken up to its first comma only.

* `Tag` — a directive with what stands before it; `tagsText` — a list of them.
* `clean_tags` — cleaning a list.
* `IsSetOff`, `Shows` — the directives that are words of their own.
* `mem_words_tags` — they are the words that are found.
* `trailer_tags` — a list at the end of a header.
* `directiveRun_tags` — the part of a list that is found behind a field.
-/

namespace SchemaAccess.Layout

def Mark.isFiller : Mark → Bool
  | filler _ => true
  | _ => false

end SchemaAccess.Layout

namespace SchemaAccess.Loose

open Text Layout

/-! ## Lists of directives

A tag is a directive as it may be written next to others.  What stands before it are marks that a
grammar ignores, and none of them is part of the directive; the search, however, ignores white space
only. -/

/-- A directive with the white space, comments and commas before it. -/
structure Tag where
  before : List Mark
  isIgnored : IsIgnored before
  name : Name
  arguments : Option ArgumentList

def marksText (stage : Stage) (marks : List Mark) : List Char := marks.flatMap (Mark.text stage)

namespace Tag

def list (stage : Stage) (tag : Tag) : List Char := (tag.arguments.map (·.text stage)).getD []

def text (stage : Stage) (tag : Tag) : List Char :=
  marksText stage tag.before ++ '@' :: (tag.name.chars ++ tag.list stage)

/-- The directive with one space before it. -/
def spaced (tag : Tag) : Tag where
  before := [.filler (.blank ' ' isBlank_space)]
  isIgnored _ hm := .inl ⟨_, List.mem_singleton.1 hm⟩
  name := tag.name
  arguments := tag.arguments

end Tag

def tagsText (stage : Stage) (tags : List Tag) : List Char := tags.flatMap (Tag.text stage)

/-- The directives before the first comma. -/
def untilComma (tags : List Tag) : List Tag :=
  tags.takeWhile fun tag => tag.before.all Mark.isFiller

section Cleaning

variable {marks : List Mark} {rest : List Char}

theorem char_eq_comma (h : IsIgnored marks) : ∀ c, Mark.char c ∈ marks → (c == ',') = true :=
  fun c hc => by rw [eq_comma_of_isIgnored h hc]; decide

/-- White space, comments and commas are cleaned on their own. -/
theorem clean_ignored (h : IsIgnored marks) (rest : List Char) :
    clean (marksText .written marks ++ rest) = marksText .cleaned marks ++ clean rest := by
  induction marks with
  | nil => rfl
  | cons m marks ih =>
    have ih := ih fun n hn => h n (List.mem_cons_of_mem m hn)
    simp only [marksText, List.flatMap_cons, List.append_assoc] at ih ⊢
    rcases h m List.mem_cons_self with ⟨f, rfl⟩ | rfl
    · rw [Mark.text, clean_filler, ih]
      rfl
    · rw [Mark.text, List.singleton_append, clean_char (by decide), ih]
      rfl

/-- A tag begins a seam, since it begins with an at sign or with what is ignored. -/
theorem Seam.tag (tag : Tag) (rest : List Char) : Seam (tag.text .written ++ rest) := by
  obtain ⟨before, isIgnored, name, arguments⟩ := tag
  have hat : ∀ s, Seam ('@' :: s) := Seam.cons (by decide) (by decide) (by decide)
  cases before with
  | nil => exact hat _
  | cons m before =>
    simp only [Tag.text, marksText, List.flatMap_cons, List.append_assoc]
    rcases isIgnored m List.mem_cons_self with ⟨f, rfl⟩ | rfl
    · refine Seam.filler f (NoList.marks isTame_comma (hat _).noList fun c hc => ?_)
      exact char_eq_comma isIgnored c (List.mem_cons_of_mem _ hc)
    · exact Seam.cons (by decide) (by decide) (by decide) _

/-- A directive with what stands before it is cleaned on its own, if a seam follows. -/
theorem clean_tag (tag : Tag) (h : Seam rest) :
    clean (tag.text .written ++ rest) = tag.text .cleaned ++ clean rest := by
  obtain ⟨before, isIgnored, name, arguments⟩ := tag
  simp only [Tag.text, List.append_assoc, List.cons_append]
  rw [clean_ignored isIgnored]
  cases arguments with
  | none =>
    simp only [Tag.list, Option.map_none, Option.getD_none, List.nil_append]
    rw [← List.cons_append, clean_directive name.isName h.head h.noList.afterArguments?,
      List.cons_append]
  | some list =>
    simp only [Tag.list, Option.map_some, Option.getD_some]
    rw [← List.cons_append, clean_directive_list name.isName (stops_argumentList list rest)
      (afterArguments?_list list rest)]
    rfl

/-- **A list of directives is cleaned on its own**, whatever stands between the directives. -/
theorem clean_tags (tags : List Tag) (h : Seam rest) :
    clean (tagsText .written tags ++ rest) = tagsText .cleaned tags ++ clean rest := by
  induction tags with
  | nil => rfl
  | cons tag tags ih =>
    have hseam : Seam (tagsText .written tags ++ rest) := by
      cases tags with
      | nil => exact h
      | cons next tags =>
        rw [tagsText, List.flatMap_cons, List.append_assoc]
        exact Seam.tag next _
    simp only [tagsText, List.flatMap_cons, List.append_assoc] at ih hseam ⊢
    rw [clean_tag tag hseam, ih]

end Cleaning

/-! ## Characters

In the cleaned list there are names, at signs, commas and white space.  That is all that the
searches need to know in order to pass over it. -/

section Characters

variable {marks : List Mark} {tag : Tag} {tags : List Tag} {c : Char}

theorem mem_marks (h : IsIgnored marks) (hc : c ∈ marksText .cleaned marks) :
    isBlank c = true ∨ c = ',' := by
  obtain ⟨m, hm, hc⟩ := List.mem_flatMap.1 hc
  rcases h m hm with ⟨f, rfl⟩ | rfl
  · exact .inl (isBlank_of_mem_filler hc)
  · exact .inr (List.mem_singleton.1 hc)

/-- Of an argument list white space is left, which is what sets a directive off from the next
one. -/
theorem isBlank_of_mem_tagList (hc : c ∈ tag.list .cleaned) : isBlank c = true := by
  cases ha : tag.arguments with
  | none => simp [Tag.list, ha] at hc
  | some list =>
    rw [Tag.list, ha, Option.map_some, Option.getD_some, ArgumentList.text,
      List.mem_singleton] at hc
    rw [hc]
    decide

/-- The characters of a cleaned list. -/
theorem mem_tags (hc : c ∈ tagsText .cleaned tags) :
    isBlank c = true ∨ isNameChar c = true ∨ c = '@' ∨ c = ',' := by
  obtain ⟨tag, -, hc⟩ := List.mem_flatMap.1 hc
  simp only [Tag.text, List.mem_append, List.mem_cons] at hc
  rcases hc with hc | rfl | hc | hc
  · exact (mem_marks tag.isIgnored hc).imp_right fun h => .inr (.inr h)
  · exact .inr (.inr (.inl rfl))
  · exact .inr (.inl (isNameChar_of_mem tag.name.isName hc))
  · exact .inl (isBlank_of_mem_tagList hc)

/-- Nothing in a list of directives opens or closes anything, so the fields and blocks around it are
those of the text without it. -/
theorem inert_of_mem_tags (hc : c ∈ tagsText .cleaned tags) :
    isOpening c = false ∧ c ≠ ')' ∧ isPlain c = true := by
  rcases mem_tags hc with h | h | rfl | rfl
  · exact ⟨isOpening_of_class h (by decide) (by decide), ne_of_class h (by decide),
      isPlain_of_isBlank h⟩
  · exact ⟨isOpening_of_class h (by decide) (by decide), ne_of_class h (by decide),
      isPlain_of_isNameChar h⟩
  · decide
  · decide

/-- A list of directives begins with white space, a comma or an at sign. -/
theorem stops_tags {p : Char → Bool} {rest : List Char} (hp : ∀ c, isBlank c = true → p c = false)
    (hat : p '@' = false) (hcomma : p ',' = false) (hr : Stops p rest) :
    Stops p (tagsText .cleaned tags ++ rest) := by
  cases tags with
  | nil => exact hr
  | cons tag tags =>
    simp only [tagsText, List.flatMap_cons, Tag.text, List.append_assoc, List.cons_append]
    refine stops_append (fun c hc => ?_) (stops_cons hat _)
    rcases mem_marks tag.isIgnored hc with hc | rfl
    · exact hp c hc
    · exact hcomma

end Characters

/-! ## Words

A directive is found as a word of the cleaned text.  Its word is the name with the at sign exactly
if it is set off on both sides, so `Shows` says on the list what `words` makes of the text. -/

/-- Between `front` and `back` a directive is a word of its own: on both sides it is set off by
white space or an argument list, or the list ends. -/
structure IsSetOff (front : List Tag) (tag : Tag) (back : List Tag) : Prop where
  before : tag.before.getLast?.any Mark.isFiller = true ∨
    tag.before = [] ∧ ∀ other, front.getLast? = some other → other.arguments.isSome = true
  behind : tag.arguments.isSome = true ∨
    ∀ other, back.head? = some other → other.before.head?.any Mark.isFiller = true

/-- A directive of the name is a word of its own in the list. -/
def Shows (name : String) (tags : List Tag) : Prop :=
  ∃ front tag back, tags = front ++ tag :: back ∧ tag.name.string = name ∧ IsSetOff front tag back

/-- The names of the directives in a list. -/
def tagNames (tags : List Tag) : List String := tags.map fun tag => tag.name.string

section Words

variable {front back tags : List Tag} {tag : Tag} {name : String}

/-- Only a directive of the list shows. -/
theorem Shows.mem (h : Shows name tags) : name ∈ tagNames tags := by
  obtain ⟨front, tag, back, rfl, rfl, -⟩ := h
  exact List.mem_map_of_mem (by simp)

/-- With a space before each directive, every directive shows. -/
theorem shows_spaced_iff : Shows name (tags.map Tag.spaced) ↔ name ∈ tagNames tags := by
  constructor
  · intro h
    have hmem := h.mem
    rwa [tagNames, List.map_map] at hmem
  · intro h
    obtain ⟨tag, htag, rfl⟩ := List.mem_map.1 h
    obtain ⟨front, back, rfl⟩ := List.append_of_mem htag
    refine ⟨front.map Tag.spaced, tag.spaced, back.map Tag.spaced, by simp, rfl, .inl rfl, .inr ?_⟩
    intro other hother
    rw [List.head?_map] at hother
    obtain ⟨next, -, rfl⟩ := Option.map_eq_some_iff.1 hother
    rfl

/-- In a list with spaces there is no comma. -/
theorem untilComma_spaced (tags : List Tag) :
    untilComma (tags.map Tag.spaced) = tags.map Tag.spaced := by
  refine List.takeWhile_eq_self_iff.2 fun tag htag => ?_
  obtain ⟨tag, -, rfl⟩ := List.mem_map.1 htag
  rfl

theorem exists_text_filler (f : Filler) : ∃ c, f.text .cleaned = [c] ∧ isBlank c = true := by
  cases f with
  | blank c isBlank => exact ⟨c, rfl, isBlank⟩
  | comment text onLine => exact ⟨'\n', rfl, show isBlank '\n' = true by decide⟩

/-- What is left of a mark is one character, white space of all but a comma. -/
theorem exists_text_mark {marks : List Mark} (h : IsIgnored marks) {m : Mark} (hm : m ∈ marks) :
    ∃ c, m.text .cleaned = [c] ∧ isBlank c = m.isFiller := by
  rcases h m hm with ⟨f, rfl⟩ | rfl
  · exact exists_text_filler f
  · exact ⟨',', rfl, by decide⟩

/-- A tag ends with white space if it has arguments, and with its name if not. -/
theorem exists_getLast?_tag (tag : Tag) :
    ∃ c, (tag.text .cleaned).getLast? = some c ∧ isBlank c = tag.arguments.isSome := by
  obtain ⟨before, isIgnored, name, arguments⟩ := tag
  cases arguments with
  | none =>
    have hne := ne_nil_of_isName name.isName
    refine ⟨name.chars.getLast hne, ?_, isBlank_of_mem_name name.isName _ (List.getLast_mem hne)⟩
    simp [Tag.text, Tag.list, List.getLast?_append, List.getLast?_cons,
      List.getLast?_eq_some_getLast hne]
  | some list =>
    refine ⟨' ', ?_, isBlank_space⟩
    simp [Tag.text, Tag.list, ArgumentList.text, List.getLast?_append, List.getLast?_cons]

/-- Before a directive that is set off there is white space, or nothing at all.  The two cases are
what is ignored before it, and the end of the directive before. -/
theorem isSetOff_before_iff :
    (∀ c, (tagsText .cleaned front ++ marksText .cleaned tag.before).getLast? = some c →
      isBlank c = true) ↔
      (tag.before.getLast?.any Mark.isFiller = true ∨
        tag.before = [] ∧
          ∀ other, front.getLast? = some other → other.arguments.isSome = true) := by
  obtain ⟨before, isIgnored, name, arguments⟩ := tag
  rcases List.eq_nil_or_concat before with rfl | ⟨init, m, rfl⟩
  · rcases List.eq_nil_or_concat front with rfl | ⟨init, other, rfl⟩
    · simp [tagsText, marksText]
    · obtain ⟨c, hlast, hc⟩ := exists_getLast?_tag other
      simp [tagsText, marksText, List.getLast?_append, hlast, hc]
  · obtain ⟨c, hm, hc⟩ := exists_text_mark isIgnored (by simp : m ∈ init.concat m)
    simp [marksText, List.getLast?_append, hm, hc]

/-- Behind it there is white space, or nothing. -/
theorem isSetOff_behind_iff :
    Stops (fun c => !isBlank c) (tag.list .cleaned ++ tagsText .cleaned back) ↔
      (tag.arguments.isSome = true ∨
        ∀ other, back.head? = some other → other.before.head?.any Mark.isFiller = true) := by
  have hcons : ∀ {c : Char} (rest : List Char),
      Stops (fun c => !isBlank c) (c :: rest) ↔ isBlank c = true := by
    intro c rest
    simp [Stops]
  obtain ⟨before, isIgnored, name, arguments⟩ := tag
  cases arguments with
  | some list =>
    simp [Tag.list, ArgumentList.text, hcons, isBlank_space]
  | none =>
    cases back with
    | nil => simp [Tag.list, tagsText, stops_nil]
    | cons other back =>
      obtain ⟨before, isIgnored, name, arguments⟩ := other
      cases before with
      | nil =>
        have hat : isBlank '@' = false := by decide
        simp [Tag.list, tagsText, Tag.text, marksText, hcons, hat]
      | cons m before =>
        obtain ⟨c, hm, hc⟩ := exists_text_mark isIgnored List.mem_cons_self
        simp [Tag.list, tagsText, Tag.text, marksText, hm, hcons, hc]

/-- A text is cut at a character in one way, if the first part does not have it. -/
theorem append_of_not_mem {c : Char} {u v s t : List Char} (hu : c ∉ u)
    (h : u ++ v = s ++ c :: t) : ∃ more, s = u ++ more ∧ v = more ++ c :: t := by
  rcases List.append_eq_append_iff.1 h with ⟨more, hs, hv⟩ | ⟨more, hsplit, ht⟩
  · exact ⟨more, hs, hv⟩
  · cases more with
    | nil => exact ⟨[], by simpa using hsplit.symm, by simpa using ht.symm⟩
    | cons d more =>
      rw [List.cons_append, List.cons.injEq] at ht
      exact absurd (by rw [hsplit, ht.1]; simp) hu

/-- Each at sign in a list is that of a directive. -/
theorem exists_tag_of_at {s t : List Char} (h : tagsText .cleaned tags = s ++ '@' :: t) :
    ∃ front tag back, tags = front ++ tag :: back ∧
      s = tagsText .cleaned front ++ marksText .cleaned tag.before ∧
      t = tag.name.chars ++ (tag.list .cleaned ++ tagsText .cleaned back) := by
  induction tags generalizing s with
  | nil => simp [tagsText] at h
  | cons tag tags ih =>
    have hmarks : '@' ∉ marksText .cleaned tag.before := by
      intro hc
      rcases mem_marks tag.isIgnored hc with hc | hc
      · exact absurd hc (by decide)
      · exact absurd hc (by decide)
    have hword : '@' ∉ tag.name.chars ++ tag.list .cleaned := by
      intro hc
      rcases List.mem_append.1 hc with hc | hc
      · exact absurd (isNameChar_of_mem tag.name.isName hc) (by decide)
      · exact absurd (isBlank_of_mem_tagList hc) (by decide)
    simp only [tagsText, List.flatMap_cons, Tag.text, List.append_assoc, List.cons_append] at h
    obtain ⟨more, rfl, hmore⟩ := append_of_not_mem hmarks h
    cases more with
    | nil =>
      rw [List.nil_append, List.cons.injEq] at hmore
      exact ⟨[], tag, tags, rfl, by simp [tagsText], hmore.2.symm⟩
    | cons d more =>
      rw [List.cons_append, List.cons.injEq, ← List.append_assoc] at hmore
      obtain ⟨behind, rfl, hbehind⟩ := append_of_not_mem hword hmore.2
      obtain ⟨front, other, back, rfl, rfl, ht⟩ := ih hbehind
      refine ⟨tag :: front, other, back, rfl, ?_, ht⟩
      rw [← hmore.1]
      simp [tagsText, Tag.text]

/-- **The directives that are words of their own are those that show.**  From left to right, a word
begins at an at sign, which is that of a directive by `exists_tag_of_at`, and the separators around
it are told by the two lemmas above. -/
theorem mem_words_tags (hname : IsName name.toList) :
    ('@' :: name.toList) ∈ words (tagsText .cleaned tags) ↔ Shows name tags := by
  constructor
  · intro hword
    obtain ⟨-, -, before, behind, htext, hbefore, hbehind⟩ := exists_of_mem_piecesWhere hword
    obtain ⟨front, tag, back, rfl, rfl, ht⟩ :=
      exists_tag_of_at (t := name.toList ++ behind) htext
    have hstop : Stops isNameChar behind := fun c hc =>
      isNameChar_of_isBlank (by simpa using hbehind c hc)
    have hstop' : Stops isNameChar (tag.list .cleaned ++ tagsText .cleaned back) := by
      refine stops_append (fun c hc => isNameChar_of_isBlank (isBlank_of_mem_tagList hc)) ?_
      rw [← List.append_nil (tagsText _ _)]
      exact stops_tags (fun _ => isNameChar_of_isBlank) (by decide) (by decide) (stops_nil _)
    have htake := congrArg (List.takeWhile isNameChar) ht
    have hdrop := congrArg (List.dropWhile isNameChar) ht
    rw [takeWhile_append_of_stops (fun _ => isNameChar_of_mem hname) hstop,
      takeWhile_append_of_stops (fun _ => isNameChar_of_mem tag.name.isName) hstop'] at htake
    rw [dropWhile_append_of_stops (fun _ => isNameChar_of_mem hname) hstop,
      dropWhile_append_of_stops (fun _ => isNameChar_of_mem tag.name.isName) hstop'] at hdrop
    refine ⟨front, tag, back, rfl, ?_, isSetOff_before_iff.1 hbefore,
      isSetOff_behind_iff.1 (hdrop ▸ hbehind)⟩
    rw [Name.string, ← htake, String.ofList_toList]
  · rintro ⟨front, tag, back, rfl, rfl, hsetOff⟩
    have htext : tagsText .cleaned (front ++ tag :: back) =
        (tagsText .cleaned front ++ marksText .cleaned tag.before) ++
          (('@' :: tag.name.chars) ++ (tag.list .cleaned ++ tagsText .cleaned back)) := by
      simp [tagsText, Tag.text]
    have hword : ∀ c ∈ '@' :: tag.name.chars, isBlank c = false := by
      intro c hc
      rcases List.mem_cons.1 hc with rfl | hc
      · decide
      · exact isBlank_of_mem_name tag.name.isName c hc
    rw [Name.string, String.toList_ofList, htext]
    exact mem_piecesWhere (List.cons_ne_nil _ _) hword (isSetOff_before_iff.2 hsetOff.before)
      (isSetOff_behind_iff.2 hsetOff.behind)

end Words

/-! ## Lists at the end of a header

A list of directives is the last thing in the header of a type, with gaps around it.  As a
trailer it makes no difference to the search for the block; as words it decides whether the
type is a model. -/

section Headers

variable {s t : List Char} (lead gap : Gap) (tags : List Tag)

/-- Texts in which no name begins behind white space may be put together if the second begins with
none. -/
theorem nameless_append
    (hs : s.IsChain fun c d => isBlank c = true → isNameStart d = false)
    (ht : t.IsChain fun c d => isBlank c = true → isNameStart d = false)
    (hstop : Stops isNameStart t) :
    (s ++ t).IsChain fun c d => isBlank c = true → isNameStart d = false :=
  List.isChain_append.2 ⟨hs, ht, fun _ _ d hd _ => hstop d hd⟩

theorem nameless_of_forall (h : ∀ c ∈ s, isNameStart c = false) :
    s.IsChain fun c d => isBlank c = true → isNameStart d = false := by
  induction s with
  | nil => exact List.isChain_nil
  | cons c s ih =>
    refine List.isChain_cons.2 ⟨fun d hd _ => ?_, ih fun d hd => h d (List.mem_cons_of_mem c hd)⟩
    exact h d (List.mem_cons_of_mem c (List.mem_of_mem_head? hd))

theorem nameless_of_apart (h : ∀ c ∈ s, isBlank c = false) :
    s.IsChain fun c d => isBlank c = true → isNameStart d = false := by
  induction s with
  | nil => exact List.isChain_nil
  | cons c s ih =>
    refine List.isChain_cons.2 ⟨fun d _ hc => ?_, ih fun d hd => h d (List.mem_cons_of_mem c hd)⟩
    rw [h c List.mem_cons_self] at hc
    cases hc

/-- In a list of directives no name begins behind white space, for each has its at sign before
it. -/
theorem nameless_tags {rest : List Char} (hrest : ∀ c ∈ rest, isNameStart c = false) :
    (tagsText .cleaned tags ++ rest).IsChain
      fun c d => isBlank c = true → isNameStart d = false := by
  have hblank : ∀ c, isBlank c = true → isNameStart c = false := fun _ => isNameStart_of_isBlank
  induction tags with
  | nil => exact nameless_of_forall hrest
  | cons tag tags ih =>
    have hmarks : ∀ c ∈ marksText .cleaned tag.before, isNameStart c = false := by
      intro c hc
      rcases mem_marks tag.isIgnored hc with hc | rfl
      · exact hblank c hc
      · decide
    have hword : ∀ c ∈ '@' :: tag.name.chars, isBlank c = false := by
      intro c hc
      rcases List.mem_cons.1 hc with rfl | hc
      · decide
      · exact isBlank_of_mem_name tag.name.isName c hc
    have hlist : ∀ c ∈ tag.list .cleaned, isNameStart c = false := fun c hc =>
      hblank c (isBlank_of_mem_tagList hc)
    have hstop : Stops isNameStart (tagsText .cleaned tags ++ rest) :=
      stops_tags hblank (by decide) (by decide) fun c hc => hrest c (List.mem_of_mem_head? hc)
    have htext : tagsText .cleaned (tag :: tags) ++ rest = marksText .cleaned tag.before ++
        (('@' :: tag.name.chars) ++ (tag.list .cleaned ++ (tagsText .cleaned tags ++ rest))) := by
      simp [tagsText, Tag.text]
    rw [htext]
    refine nameless_append (nameless_of_forall hmarks) (nameless_append (nameless_of_apart hword)
      (nameless_append (nameless_of_forall hlist) ih hstop) (stops_append hlist hstop)) ?_
    exact stops_cons (by decide) _

/-- **A list of directives is a trailer**: without braces, and without a name that could be taken
for that of the type. -/
theorem trailer_tags :
    Trailer (lead.text .cleaned ++ (tagsText .cleaned tags ++ gap.text .cleaned)) where
  isPlain c hc := by
    rcases List.mem_append.1 hc with hc | hc
    · exact isPlain_of_isBlank (isBlank_of_mem_gap hc)
    · rcases List.mem_append.1 hc with hc | hc
      · exact (inert_of_mem_tags hc).2.2
      · exact isPlain_of_isBlank (isBlank_of_mem_gap hc)
  begins := by
    have hblank : ∀ gap : Gap, ∀ c ∈ gap.text .cleaned, isNameChar c = false := fun _ _ hc =>
      isNameChar_of_isBlank (isBlank_of_mem_gap hc)
    refine stops_append (hblank lead) (stops_tags (fun _ => isNameChar_of_isBlank) (by decide)
      (by decide) fun c hc => hblank gap c (List.mem_of_mem_head? hc))
  nameless := by
    have hblank : ∀ gap : Gap, ∀ c ∈ gap.text .cleaned, isNameStart c = false := fun _ _ hc =>
      isNameStart_of_isBlank (isBlank_of_mem_gap hc)
    refine nameless_append (nameless_of_forall (hblank lead)) (nameless_tags tags (hblank gap)) ?_
    exact stops_tags (fun _ => isNameStart_of_isBlank) (by decide) (by decide)
      fun c hc => hblank gap c (List.mem_of_mem_head? hc)

/-- **A list marks a model if the directive shows in it.** -/
theorem isModelHeader_tags :
    isModelHeader (lead.text .cleaned ++ (tagsText .cleaned tags ++ gap.text .cleaned)) = true ↔
      Shows modelDirective tags := by
  rw [← mem_words_tags (by decide), isModelHeader, List.contains_iff_mem, words,
    piecesWhere_separators fun c hc => isBlank_of_mem_gap hc]
  exact iff_of_eq (congrArg (_ ∈ ·) (words_append_blanks fun _ => isBlank_of_mem_gap))

/-- So it does at the end of a header that is empty, or behind white space. -/
theorem isModelHeader_append_tags {header : List Char} (h : lead = [] → header = []) :
    isModelHeader
        (header ++ (lead.text .cleaned ++ (tagsText .cleaned tags ++ gap.text .cleaned))) =
        true ↔ isModelHeader header = true ∨ Shows modelDirective tags := by
  rw [← isModelHeader_tags lead gap tags]
  cases lead with
  | nil =>
    rw [h rfl, List.nil_append]
    have hempty : isModelHeader [] = false := by decide
    simp [hempty]
  | cons f lead =>
    obtain ⟨c, hf, hc⟩ := exists_text_filler f
    rw [Gap.text, List.flatMap_cons, hf, List.append_assoc, List.singleton_append,
      isModelHeader_append hc, Bool.or_eq_true]

end Headers

/-! ## Lists behind a field

Behind the type of a field the longest run of directives with white space between them is taken.  A
comma ends it, and what stands behind the comma is passed over. -/

section Runs

variable {rest : List Char} {tags : List Tag}

/-- A comma before the first directive keeps the list from being found. -/
theorem head?_dropWhile_marks {marks : List Mark} (h : IsIgnored marks)
    (hcomma : marks.all Mark.isFiller = false) (rest : List Char) :
    ((marksText .cleaned marks ++ rest).dropWhile isBlank).head? = some ',' := by
  induction marks with
  | nil => cases hcomma
  | cons m marks ih =>
    obtain ⟨c, hm, hc⟩ := exists_text_mark h List.mem_cons_self
    rw [marksText, List.flatMap_cons, hm, List.append_assoc, List.singleton_append]
    cases hfiller : m.isFiller with
    | true =>
      rw [List.all_cons, hfiller, Bool.true_and] at hcomma
      rw [List.dropWhile_cons_of_pos (hc.trans hfiller)]
      exact ih (fun n hn => h n (List.mem_cons_of_mem m hn)) hcomma
    | false =>
      have hm' : m = .char ',' := (h m List.mem_cons_self).resolve_left fun ⟨f, hf⟩ => by
        rw [hf] at hfiller
        cases hfiller
      rw [hm'] at hm
      rw [List.dropWhile_cons_of_neg (by simp [hc, hfiller]), ← (List.cons.inj hm).1]
      rfl

theorem isBlank_of_mem_fillers {marks : List Mark} (h : IsIgnored marks)
    (hall : marks.all Mark.isFiller = true) {c : Char} (hc : c ∈ marksText .cleaned marks) :
    isBlank c = true := by
  obtain ⟨m, hm, hc⟩ := List.mem_flatMap.1 hc
  obtain ⟨d, htext, hd⟩ := exists_text_mark h hm
  rw [htext, List.mem_singleton] at hc
  rw [hc, hd, List.all_eq_true.1 hall m hm]

/-- **The run of directives that is found goes up to the first comma**, apart from white space at
its end.  By induction on the list, with the white space that the argument list of the directive
before has left carried along as `lead`. -/
theorem directiveRun_tags (hr : Stops isNameChar rest)
    (hat : (rest.dropWhile isBlank).head? ≠ some '@') : ∀ (tags : List Tag) (lead : List Char),
    (∀ c ∈ lead, isBlank c = true) → ∃ run behind pad,
      directiveRun (lead ++ (tagsText .cleaned tags ++ rest)) = (run, behind ++ rest) ∧
      run ++ behind = lead ++ tagsText .cleaned tags ∧
      run ++ pad = lead ++ tagsText .cleaned (untilComma tags) ∧ ∀ c ∈ pad, isBlank c = true
  | [], lead, hlead => by
      refine ⟨[], lead, lead, directiveRun_of_head ?_, (List.append_nil lead).symm,
        (List.append_nil lead).symm, hlead⟩
      rw [List.dropWhile_append_of_pos hlead]
      exact hat
  | tag :: tags, lead, hlead => by
      have htext : tagsText .cleaned (tag :: tags) = marksText .cleaned tag.before ++
          '@' :: (tag.name.chars ++ (tag.list .cleaned ++ tagsText .cleaned tags)) := by
        simp [tagsText, Tag.text]
      cases hall : tag.before.all Mark.isFiller with
      | false =>
        refine ⟨[], lead ++ tagsText .cleaned (tag :: tags), lead, ?_, rfl, ?_, hlead⟩
        · rw [List.append_assoc]
          refine directiveRun_of_head ?_
          rw [List.dropWhile_append_of_pos hlead, htext, List.append_assoc,
            head?_dropWhile_marks tag.isIgnored hall]
          decide
        · rw [untilComma, List.takeWhile_cons_of_neg (by simp [hall])]
          exact (List.append_nil lead).symm
      | true =>
        obtain ⟨run, behind, pad, hrun, hbehind, hpad, hisBlank⟩ :=
          directiveRun_tags hr hat tags (tag.list .cleaned) fun c => isBlank_of_mem_tagList
        have hblank : ∀ c ∈ lead ++ marksText .cleaned tag.before, isBlank c = true := by
          intro c hc
          rcases List.mem_append.1 hc with hc | hc
          · exact hlead c hc
          · exact isBlank_of_mem_fillers tag.isIgnored hall hc
        have hstop : Stops isNameChar (tag.list .cleaned ++ (tagsText .cleaned tags ++ rest)) :=
          stops_append (fun c hc => isNameChar_of_isBlank (isBlank_of_mem_tagList hc))
            (stops_tags (fun _ => isNameChar_of_isBlank) (by decide) (by decide) hr)
        have hcons := directiveRun_cons hblank tag.name.isName hstop
        have huntil : tagsText .cleaned (untilComma (tag :: tags)) =
            marksText .cleaned tag.before ++
              '@' :: (tag.name.chars ++
                (tag.list .cleaned ++ tagsText .cleaned (untilComma tags))) := by
          simp [untilComma, hall, tagsText, Tag.text]
        refine ⟨lead ++ marksText .cleaned tag.before ++ '@' :: (tag.name.chars ++ run), behind,
          pad,
          ?_, ?_, ?_, hisBlank⟩
        · rw [htext]
          simp only [List.append_assoc, List.cons_append] at hcons hrun ⊢
          rw [hcons, hrun]
        · rw [htext, ← hbehind]
          simp
        · rw [huntil, ← hpad]
          simp

/-- A run makes a relationship if one of the relationship directives is a word of it. -/
theorem isRelationship_iff {directives : List Char} : isRelationship directives = true ↔
    ∃ name ∈ relationshipDirectives, ('@' :: name.toList) ∈ words directives := by
  rw [isRelationship, List.any_eq_true]
  constructor
  · rintro ⟨word, hword, hname⟩
    split at hname
    · next name =>
      refine ⟨String.ofList name, List.contains_iff_mem.1 hname, ?_⟩
      rwa [String.toList_ofList]
    · cases hname
  · rintro ⟨name, hname, hword⟩
    refine ⟨_, hword, ?_⟩
    simpa [String.ofList_toList] using hname

end Runs

end SchemaAccess.Loose
