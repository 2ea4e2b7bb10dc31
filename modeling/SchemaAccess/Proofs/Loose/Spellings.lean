import SchemaAccess.Proofs.Loose.DirectiveLists
import SchemaAccess.Proofs.Loose.TypeSpellings

/-!
# Which spellings are read alike

A list of directives is read as with a space before each directive exactly if what counts shows in
it: on a type the model directive, behind a field a relationship directive before the first comma.
A type is read as its compact spelling only if it is spelled so.

* `Heading`, `view_heading` — a list at the end of a header.
* `FieldEnd`, `view_fieldEnd` — a list behind a field.
* `alike_headings_iff`, `alike_fieldEnds_iff` — the lists that are read as if they were spaced.
* `read_alike_iff` — both, and the spellings of types.
-/

namespace SchemaAccess.Loose

open Text Layout

/-! ## Lists on types -/

/-- The place for a list of directives on a type: before the brace of its body, and behind white
space or the name of the type. -/
structure Heading where
  before : List Char
  isText : Place.text.after before = .text
  lead : Gap
  named : lead = [] → ∀ header ∈ lastHeader? (clean before), header = []
  gap : Gap
  rest : List Char

/-- The schema with a list of directives on the type. -/
def Heading.text (place : Heading) (list : List Char) : String :=
  String.ofList (place.before ++ (place.lead.text .written ++
    (list ++ (place.gap.text .written ++ '\x7b' :: place.rest))))

section Headings

variable {tags other : List Tag}

/-- **A heading, cleaned and squeezed.**  The list is cleaned in its place, and so are the texts
before it and behind the brace, each on its own. -/
theorem Heading.squeeze_clean_text (place : Heading) (tags : List Tag) :
    squeeze (clean (place.text (tagsText .written tags)).toList) = squeeze (clean place.before ++
      ((place.lead.text .cleaned ++ (tagsText .cleaned tags ++ place.gap.text .cleaned)) ++
        '\x7b' :: clean place.rest)) := by
  have hseam : Seam (place.gap.text .written ++ '\x7b' :: place.rest) :=
    Seam.gap _ (Seam.cons (by decide) (by decide) (by decide) _)
  rw [Heading.text, String.toList_ofList, squeeze_clean_append place.isText, clean_gap,
    clean_tags tags hseam, clean_gap, clean_char (by decide)]
  simp only [List.append_assoc]

/-- Lists that mark a model alike are read alike in every place on a type. -/
theorem view_heading (place : Heading)
    (h : Shows modelDirective tags ↔ Shows modelDirective other) (build : String) :
    view (place.text (tagsText .written tags)) build =
      view (place.text (tagsText .written other)) build := by
  refine view_eq_of_models (place.squeeze_clean_text tags) (place.squeeze_clean_text other) ?_ build
  refine models_trailer (trailer_tags _ _ tags) (trailer_tags _ _ other) fun header hheader => ?_
  have hnamed : place.lead = [] → header = [] := fun hlead => place.named hlead header hheader
  rw [Bool.eq_iff_iff, isModelHeader_append_tags _ _ _ hnamed,
    isModelHeader_append_tags _ _ _ hnamed,
    h]

/-- The place for a list on the only type of a schema. -/
def onlyHeading : Heading where
  before := "type A".toList
  isText := rfl
  lead := []
  named := by
    rintro - header hheader
    have hblocks :=
      @blocks_single .type ['A'] [] [] (by decide) (stops_cons (by decide) _) isPlain_nil
      isPlain_nil
    have htext : clean "type A".toList ++ ['\x7b', '\x7d'] =
        keywordText .type ++ ' ' :: (['A'] ++ ([] ++ '\x7b' :: ([] ++ ['\x7d']))) := by
      rw [clean_eq_self (List.all_eq_true.1 (by decide))]
      rfl
    rw [lastHeader?, htext, hblocks] at hheader
    exact (Option.some.inj hheader).symm
  gap := []
  rest := "id:ID\x7d".toList

/-- There, the type is a model exactly if the model directive shows. -/
theorem models_onlyHeading (tags : List Tag) :
    (view (onlyHeading.text (tagsText .written tags)) "").models = .ok [] ↔
      ¬ Shows modelDirective tags := by
  let header := onlyHeading.lead.text .cleaned ++
    (tagsText .cleaned tags ++ onlyHeading.gap.text .cleaned)
  have htrailer : Trailer header := trailer_tags _ _ tags
  have htext : clean "type A".toList ++ (header ++ '\x7b' :: clean "id:ID\x7d".toList) =
      keywordText .type ++
        ' ' :: (['A'] ++ (header ++ '\x7b' :: ("id:ID".toList ++ ['\x7d']))) := by
    rw [clean_eq_self (List.all_eq_true.1 (by decide)),
      clean_eq_self (List.all_eq_true.1 (by decide))]
    rfl
  have hblocks := @blocks_single .type ['A'] header "id:ID".toList (by decide) (htrailer.stops _)
    htrailer.isPlain (List.all_eq_true.1 (by decide))
  have hmodels : models (clean (onlyHeading.text (tagsText .written tags)).toList) =
      if isModelHeader header then [modelOf ⟨.type, ['A'], header, "id:ID".toList⟩] else [] := by
    rw [← models_squeeze, onlyHeading.squeeze_clean_text tags, models_squeeze]
    change models (clean "type A".toList ++ (header ++ '\x7b' :: clean "id:ID\x7d".toList)) = _
    rw [htext, models, hblocks]
    cases hheader : isModelHeader header <;> simp [hheader]
  have hview : (view (onlyHeading.text (tagsText .written tags)) "").models =
      .ok (models (clean (onlyHeading.text (tagsText .written tags)).toList)) := rfl
  rw [hview, hmodels, ← isModelHeader_tags onlyHeading.lead onlyHeading.gap tags]
  change _ ↔ ¬ isModelHeader header = true
  cases isModelHeader header <;> simp

/-- There, a model directive that does not show is missed. -/
theorem view_onlyHeading_ne (hmem : modelDirective ∈ tagNames tags)
    (hhidden : ¬ Shows modelDirective tags) :
    view (onlyHeading.text (tagsText .written tags)) "" ≠
      view (onlyHeading.text (tagsText .written (tags.map Tag.spaced))) "" := by
  intro hview
  have hmodels := congrArg SchemaView.models hview
  rw [(models_onlyHeading tags).2 hhidden] at hmodels
  exact (models_onlyHeading _).1 hmodels.symm (shows_spaced_iff.2 hmem)

/-- A list on a type is read as with spaces exactly if the model directive shows, should there be
one. -/
theorem alike_headings_iff (tags : List Tag) :
    (∀ place : Heading, ∀ build, view (place.text (tagsText .written tags)) build =
        view (place.text (tagsText .written (tags.map Tag.spaced))) build) ↔
      (modelDirective ∈ tagNames tags → Shows modelDirective tags) := by
  constructor
  · intro h hmem
    by_contra hhidden
    exact view_onlyHeading_ne hmem hhidden (h onlyHeading "")
  · intro h place build
    refine view_heading place ?_ build
    rw [shows_spaced_iff]
    exact ⟨Shows.mem, h⟩

end Headings

/-! ## Lists behind fields

What the reader takes from a list behind a field is one bit, whether a relationship directive shows
before the first comma.  The list is passed over otherwise, so that two lists with the same bit can
stand for one another in every schema around them. -/

/-- The place for a list of directives behind the type of a field. -/
structure FieldEnd extends Cut where
  /-- The type ends here. -/
  type : ∃ c, first.getLast? = some c ∧ isTypeChar c = true
  notDirective : ¬ EndsInDirective first
  gap : Gap
  seam : Seam behind
  boundary : Boundary second

/-- A relationship directive shows before the first comma of the list. -/
def Relates (tags : List Tag) : Prop :=
  ∃ name ∈ relationshipDirectives, Shows name (untilComma tags)

section FieldEnds

variable {tags other : List Tag} {rest : List Char}

/-- Both relationship directives are names, so that they are told as whole words of a list. -/
theorem isName_relationship : ∀ name ∈ relationshipDirectives, IsName name.toList := by
  decide

/-- Behind white space, a relationship is told by the part of the list before the first comma. -/
theorem isRelationship_run (gap : Gap) (tags : List Tag) (h : Boundary rest) :
    isRelationship (directiveRun (gap.text .cleaned ++ (tagsText .cleaned tags ++ rest))).1 = true ↔
      Relates tags := by
  have hblank : ∀ c ∈ gap.text .cleaned, isBlank c = true := fun _ => isBlank_of_mem_gap
  obtain ⟨run, behind, pad, hrun, -, hpad, hisBlank⟩ :=
    directiveRun_tags h.stops_name (h.head_ne (by decide)) tags _ hblank
  have hwords : words run = words (tagsText .cleaned (untilComma tags)) := by
    rw [← words_append_blanks hisBlank, hpad, words, piecesWhere_separators hblank]
    rfl
  rw [hrun, isRelationship_iff, hwords]
  exact exists_congr fun name => and_congr_right fun hname =>
    mem_words_tags (isName_relationship name hname)

/-- A list of directives behind a type is passed over. -/
theorem passed_tags (gap : Gap) (tags : List Tag) (h : Boundary rest) :
    Passed (gap.text .cleaned ++ tagsText .cleaned tags) rest := by
  have hblank : ∀ c ∈ gap.text .cleaned, isBlank c = true := fun _ => isBlank_of_mem_gap
  have hinert : ∀ c ∈ gap.text .cleaned ++ tagsText .cleaned tags,
      isOpening c = false ∧ c ≠ ')' := by
    intro c hc
    rcases List.mem_append.1 hc with hc | hc
    · exact ⟨isOpening_of_class (hblank c hc) (by decide) (by decide),
        ne_of_class (hblank c hc) (by decide)⟩
    · exact ⟨(inert_of_mem_tags hc).1, (inert_of_mem_tags hc).2.1⟩
  refine ⟨hinert, ?_, ?_⟩
  · rw [List.append_assoc]
    exact stops_append (fun c hc => isTypeChar_of_isBlank (hblank c hc))
      (stops_tags (fun _ => isTypeChar_of_isBlank) (by decide) (by decide) h.head)
  · obtain ⟨run, behind, pad, hrun, hbehind, -, -⟩ :=
      directiveRun_tags h.stops_name (h.head_ne (by decide)) tags _ hblank
    rw [List.append_assoc, hrun]
    refine stops_isOpening_append (fun c hc => (hinert c ?_).1) h.ending.next
    rw [← hbehind]
    exact List.mem_append_right run hc

/-- A list behind a field is cleaned in its place, whatever comes behind it. -/
theorem clean_fieldEnd (place : FieldEnd) (tags : List Tag) :
    clean ((place.gap.text .written ++ tagsText .written tags) ++ place.behind) =
      (place.gap.text .cleaned ++ tagsText .cleaned tags) ++ clean place.behind := by
  rw [List.append_assoc, clean_gap, clean_tags tags place.seam, List.append_assoc]

/-- The schema with a list of directives behind the field. -/
def FieldEnd.listing (place : FieldEnd) (tags : List Tag) : String :=
  place.text (place.gap.text .written ++ tagsText .written tags)

/-- Lists that mark a relationship alike are read alike in every place behind a field. -/
theorem view_fieldEnd (place : FieldEnd) (h : Relates tags ↔ Relates other) (build : String) :
    view (place.listing tags) build = view (place.listing other) build := by
  obtain ⟨c, hlast, hc⟩ := place.type
  have hplain : ∀ (tags : List Tag), ∀ c ∈ place.gap.text .cleaned ++ tagsText .cleaned tags,
      isPlain c = true := by
    intro tags c hc
    rcases List.mem_append.1 hc with hc | hc
    · exact isPlain_of_isBlank (isBlank_of_mem_gap hc)
    · exact (inert_of_mem_tags hc).2.2
  have hkey : ∀ run, run = [] ∨ EndsInDirective place.first →
      isRelationship (run ++ (directiveRun
          ((place.gap.text .cleaned ++ tagsText .cleaned tags) ++ place.second)).1) =
        isRelationship (run ++ (directiveRun
          ((place.gap.text .cleaned ++ tagsText .cleaned other) ++ place.second)).1) := by
    rintro run (rfl | hends)
    · rw [List.append_assoc, List.append_assoc, List.nil_append, List.nil_append, Bool.eq_iff_iff,
        isRelationship_run _ _ place.boundary, isRelationship_run _ _ place.boundary, h]
    · exact absurd hends place.notDirective
  have hfields := congrArg (List.map fun told => (told.1.1, told.2)) (fields_exchange
    (exchange_passed hc place.boundary.ending (passed_tags place.gap tags place.boundary)
      (passed_tags place.gap other place.boundary) hkey) (.inr hlast))
  rw [List.map_map, List.map_map] at hfields
  exact place.view_source (clean_fieldEnd place tags) (clean_fieldEnd place other)
    (hplain tags) (hplain other) hfields build

/-- The place for a list behind the only field of a model. -/
def onlyFieldEnd : FieldEnd where
  before := "type A @model \x7bx:B".toList
  behind := ['\x7d']
  isText := rfl
  front := "type A @model ".toList
  brace := '\x7b'
  first := "x:B".toList
  second := []
  rest := []
  clean_before := by
    have hfront : ∀ c ∈ "type A ".toList, isOrdinary c = true := List.all_eq_true.1 (by decide)
    have hbehind : ∀ c ∈ " \x7bx:B".toList, isOrdinary c = true := List.all_eq_true.1 (by decide)
    calc clean "type A @model \x7bx:B".toList
        = "type A ".toList ++ clean (('@' :: "model".toList) ++ " \x7bx:B".toList) :=
          clean_append hfront _
      _ = "type A ".toList ++ (('@' :: "model".toList) ++ " \x7bx:B".toList) := by
          have hstop : Stops isDirectiveChar " \x7bx:B".toList := stops_cons (by decide) _
          have hnoList : NoList " \x7bx:B".toList := show _ ≠ some '(' by decide
          rw [clean_directive (by decide) hstop hnoList.afterArguments?, clean_eq_self hbehind]
      _ = "type A @model ".toList ++ '\x7b' :: "x:B".toList := rfl
  clean_behind := clean_closing
  isBrace := isPlain_opening
  isPlain_first := List.all_eq_true.1 (by decide)
  isPlain_second := isPlain_nil
  type := ⟨'B', show "x:B".toList.getLast? = some 'B' by decide, by decide⟩
  notDirective := by
    rintro ⟨name, -, hsuffix⟩
    exact absurd (hsuffix.subset List.mem_cons_self) (by decide)
  gap := []
  seam := Seam.cons (by decide) (by decide) (by decide) _
  boundary := boundary_nil

/-- There, the field is a relationship exactly if the list says so. -/
theorem models_onlyFieldEnd (tags : List Tag) :
    (view (onlyFieldEnd.listing tags) "").models = .ok [⟨"A", []⟩] ↔ ¬ Relates tags := by
  have hpassed : Passed (tagsText .cleaned tags) [] := passed_tags [] tags boundary_nil
  have hrun := isRelationship_run [] tags boundary_nil
  have hfield := @field?_append ['x'] [] [] ['B'] (tagsText .cleaned tags ++ []) (by decide)
    (by simp) (by simp) (by simp) (List.all_eq_true.1 (by decide)) hpassed.head
  have hfields : fields ("x:B".toList ++ (tagsText .cleaned tags ++ [])) =
      [⟨['x'], none, ['B'], (directiveRun (tagsText .cleaned tags ++ [])).1⟩] := by
    change fields (['x'] ++ ([] ++ ':' :: ([] ++ (['B'] ++ (tagsText .cleaned tags ++ []))))) = _
    rw [fields_of_some hfield, fields_directiveRun hpassed.next,
      hpassed.fields boundary_nil.ending, fields, occurrences.eq_1]
  have hplain : ∀ c ∈ "x:B".toList ++ (tagsText .cleaned tags ++ []), isPlain c = true := by
    intro c hc
    rw [List.append_nil] at hc
    rcases List.mem_append.1 hc with hc | hc
    · exact List.all_eq_true.1 (by decide : "x:B".toList.all isPlain = true) c hc
    · exact (inert_of_mem_tags hc).2.2
  have hblocks := @blocks_single .type ['A'] " @model ".toList _ (by decide)
    (stops_cons (by decide) _) (List.all_eq_true.1 (by decide)) hplain
  have hmodels : models (clean (onlyFieldEnd.listing tags).toList) =
      [⟨"A",
        if isRelationship (directiveRun (tagsText .cleaned tags ++ [])).1 then ["x"] else []⟩] := by
    have hheader : isModelHeader " @model ".toList = true := by decide
    rw [← models_squeeze, FieldEnd.listing,
      onlyFieldEnd.squeeze_clean_text (clean_fieldEnd onlyFieldEnd tags), models_squeeze]
    change models (keywordText .type ++ ' ' :: (['A'] ++ (" @model ".toList ++
      '\x7b' :: (("x:B".toList ++ (tagsText .cleaned tags ++ [])) ++ ['\x7d'])))) = _
    rw [models, hblocks]
    simp only [List.filter_cons, hheader, decide_true, Bool.and_true, if_true, List.filter_nil,
      List.map_cons, List.map_nil, modelOf, hfields]
    cases isRelationship (directiveRun (tagsText .cleaned tags ++ [])).1 <;> rfl
  have hview : (view (onlyFieldEnd.listing tags) "").models =
      .ok (models (clean (onlyFieldEnd.listing tags).toList)) := rfl
  rw [hview, hmodels, ← hrun]
  change _ ↔ ¬ isRelationship (directiveRun (tagsText .cleaned tags ++ [])).1 = true
  cases isRelationship (directiveRun (tagsText .cleaned tags ++ [])).1 <;> simp

/-- With a space before each directive, all directives show. -/
theorem relates_spaced_iff :
    Relates (tags.map Tag.spaced) ↔ ∃ name ∈ relationshipDirectives, name ∈ tagNames tags := by
  simp only [Relates, untilComma_spaced, shows_spaced_iff]

/-- What shows as a relationship is written out somewhere before the first comma. -/
theorem Relates.exists_mem (h : Relates tags) :
    ∃ name ∈ relationshipDirectives, name ∈ tagNames (untilComma tags) := by
  obtain ⟨name, hname, hshows⟩ := h
  exact ⟨name, hname, hshows.mem⟩

/-- There, a relationship directive that does not show before the first comma is missed. -/
theorem view_onlyFieldEnd_ne (hmem : ∃ name ∈ relationshipDirectives, name ∈ tagNames tags)
    (hhidden : ¬ Relates tags) :
    view (onlyFieldEnd.listing tags) "" ≠
      view (onlyFieldEnd.listing (tags.map Tag.spaced)) "" := by
  intro hview
  have hmodels := congrArg SchemaView.models hview
  rw [(models_onlyFieldEnd tags).2 hhidden] at hmodels
  exact (models_onlyFieldEnd _).1 hmodels.symm (relates_spaced_iff.2 hmem)

/-- A list behind a field is read as with spaces exactly if a relationship directive shows before
the first comma, should there be one. -/
theorem alike_fieldEnds_iff (tags : List Tag) :
    (∀ place : FieldEnd, ∀ build, view (place.listing tags) build =
        view (place.listing (tags.map Tag.spaced)) build) ↔
      ((∃ name ∈ relationshipDirectives, name ∈ tagNames tags) → Relates tags) := by
  constructor
  · intro h hmem
    by_contra hhidden
    exact view_onlyFieldEnd_ne hmem hhidden (h onlyFieldEnd "")
  · intro h place build
    refine view_fieldEnd place ?_ build
    rw [relates_spaced_iff]
    refine ⟨fun hrelates => ?_, h⟩
    obtain ⟨name, hname, hmem⟩ := hrelates.exists_mem
    exact ⟨name, hname, List.map_subset _ (List.takeWhile_prefix _).subset hmem⟩

end FieldEnds

/-! ## Types and lists

The two kinds of spelling in one statement, with a schema for each: white space inside a type, a
directive behind a comma on a type, and one behind a comma on a field. -/

/-- A list of identifiers. -/
def idList : TypeUse where
  type := .list (.named "ID" false) false
  isName := by decide

theorem spells_idList : Spells idList.type "[ ID ]".toList := by
  have hblank : ∀ c ∈ [' '], isBlank c = true := List.all_eq_true.1 (by decide)
  exact @Spells.list (.named "ID" false) false "ID".toList [' '] [' '] [] (.named .none) hblank
    hblank .none

def otherName : Name := ⟨['a'], by decide⟩

def modelName : Name := ⟨modelDirective.toList, by decide⟩

def manyName : Name := ⟨"hasMany".toList, by decide⟩

/-- A directive with nothing before it. -/
def bareTag (name : Name) : Tag := ⟨[], by simp [IsIgnored], name, none⟩

/-- A directive with a comma and a space before it. -/
def listedTag (name : Name) : Tag :=
  ⟨[.char ',', .filler (.blank ' ' isBlank_space)], by simp [IsIgnored], name, none⟩

theorem shows_listed : Shows modelDirective [bareTag otherName, listedTag modelName] := by
  rw [← mem_words_tags (by decide)]
  decide

theorem not_shows_bare : ¬ Shows modelDirective [bareTag otherName, bareTag modelName] := by
  rw [← mem_words_tags (by decide)]
  decide

theorem relates_bare : Relates [bareTag manyName, listedTag otherName] := by
  refine ⟨"hasMany", by decide, ?_⟩
  rw [← mem_words_tags (by decide)]
  decide

theorem not_relates_listed : ¬ Relates [bareTag otherName, listedTag manyName] := by
  intro h
  have hnone : ¬ ∃ name ∈ relationshipDirectives,
      name ∈ tagNames (untilComma [bareTag otherName, listedTag manyName]) := by
    decide
  exact hnone h.exists_mem

/-- In every place a type is read up to its first white space, so it is read as its compact spelling
only if it is spelled so.  A list of directives on a type is read as with spaces exactly if the
model directive shows in it, should there be one, and a list behind a field exactly if a
relationship directive shows before its first comma, should there be one. -/
theorem read_alike_iff (use : TypeUse) {s : List Char} (h : Spells use.type s) (tags : List Tag) :
    (∀ place : TypePlace, ∀ source,
        view source (place.text s) = view source (place.text (s.takeWhile isTypeChar))) ∧
      ((∀ place : TypePlace, ∀ source,
        view source (place.text s) = view source (place.text use.type.chars)) ↔
          s = use.type.chars) ∧
      ((∀ place : Heading, ∀ build, view (place.text (tagsText .written tags)) build =
        view (place.text (tagsText .written (tags.map Tag.spaced))) build) ↔
          (modelDirective ∈ tagNames tags → Shows modelDirective tags)) ∧
      ((∀ place : FieldEnd, ∀ build, view (place.listing tags) build =
        view (place.listing (tags.map Tag.spaced)) build) ↔
          ((∃ name ∈ relationshipDirectives, name ∈ tagNames tags) → Relates tags)) := by
  refine ⟨fun place source => view_spelling place h use.isName source, ⟨fun hview => ?_, ?_⟩,
    alike_headings_iff tags, alike_fieldEnds_iff tags⟩
  · exact h.eq_chars_of_view use.isName (hview onlyField "")
  · rintro rfl place source
    rfl

theorem read_alike_iff_idList :
    Spells idList.type "[ ID ]".toList ∧
      view "" "input A\x7bx:[ ID ]\x7d" = view "" "input A\x7bx:[\x7d" ∧
      view "type A@a, @model\x7bid:ID\x7d" "" = view "type A @a @model\x7bid:ID\x7d" "" ∧
      view "type A @model \x7bx:B@hasMany, @a\x7d" "" =
        view "type A @model \x7bx:B @hasMany @a\x7d" "" := by
  have hmodel := read_alike_iff idList spells_idList [bareTag otherName, listedTag modelName]
  have hmany := read_alike_iff idList spells_idList [bareTag manyName, listedTag otherName]
  exact ⟨spells_idList, hmodel.1 onlyField "",
    hmodel.2.2.1.2 (fun _ => shows_listed) onlyHeading "",
    hmany.2.2.2.2 (fun _ => relates_bare) onlyFieldEnd ""⟩

/-- White space in a type, nothing between the directives of a type, a comma between those of a
field: each is read otherwise than the plain spelling. -/
theorem view_spelled_ne :
    view "" "input A\x7bx:[ ID ]\x7d" ≠ view "" "input A\x7bx:[ID]\x7d" ∧
      view "type A@a@model\x7bid:ID\x7d" "" ≠ view "type A @a @model\x7bid:ID\x7d" "" ∧
      view "type A @model \x7bx:B@a, @hasMany\x7d" "" ≠
        view "type A @model \x7bx:B @a @hasMany\x7d" "" := by
  refine ⟨fun htype => ?_, ?_, ?_⟩
  · have hcompact := spells_idList.eq_chars_of_view idList.isName htype
    exact absurd hcompact (by decide)
  · exact @view_onlyHeading_ne [bareTag otherName, bareTag modelName] (by decide) not_shows_bare
  · exact @view_onlyFieldEnd_ne [bareTag otherName, listedTag manyName] (by decide)
      not_relates_listed

end SchemaAccess.Loose
