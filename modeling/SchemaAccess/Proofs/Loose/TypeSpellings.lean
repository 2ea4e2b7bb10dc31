import SchemaAccess.Proofs.Layout.CleanedText
import SchemaAccess.Proofs.Layout.Cleaning
import SchemaAccess.Proofs.Loose.Seams
import SchemaAccess.Proofs.Table.Entries

/-!
# White space inside of types

Between its brackets, its name and its marks a type reference may be spelled with any white space.
The search for fields takes the longest run of type characters, so it takes a type up to the first
white space in it.  What is left of the type is passed over, since nothing in it opens anything.  So
a schema is read as if the type ended at its first white space, and only the compact spelling is
read as the type that it spells.

* `Spells` — the spellings of a type reference; `Spells.filter` — without white space it is the
  compact one.
* `TypePlace` — a place for a type between two braces.
* `view_spelling` — in every place, a spelled type is read up to its first white space.
* `Spells.eq_chars_of_view` — a spelling that is read as the compact one is the compact one.
-/

namespace SchemaAccess.Loose

open Text Layout

/-! ## Spellings -/

/-- The spellings of the mark of a required type. -/
inductive SpellsMark : Bool → List Char → Prop
  | none : SpellsMark false []
  | some {blank : List Char} (isBlank : ∀ c ∈ blank, Text.isBlank c = true) :
    SpellsMark true (blank ++ ['!'])

/-- The spellings of a type reference. -/
inductive Spells : TypeRef → List Char → Prop
  | named {name : String} {required : Bool} {mark : List Char} (isMark : SpellsMark required mark) :
    Spells (.named name required) (name.toList ++ mark)
  | list {element : TypeRef} {required : Bool} {inside before behind mark : List Char}
    (isElement : Spells element inside) (isBefore : ∀ c ∈ before, isBlank c = true)
    (isBehind : ∀ c ∈ behind, isBlank c = true) (isMark : SpellsMark required mark) :
    Spells (.list element required) ('[' :: (before ++ (inside ++ (behind ++ ']' :: mark))))

section Spellings

variable {t : TypeRef} {required : Bool} {s mark : List Char}

theorem filter_blanks {blank : List Char} (h : ∀ c ∈ blank, isBlank c = true) :
    blank.filter isTypeChar = [] :=
  List.filter_eq_nil_iff.2 fun c hc => by simp [isTypeChar_of_isBlank (h c hc)]

theorem SpellsMark.filter (h : SpellsMark required mark) :
    mark.filter isTypeChar = TypeRef.mark required := by
  cases h with
  | none => rfl
  | some isBlank =>
    rw [List.filter_append, filter_blanks isBlank]
    rfl

/-- Without its white space, a spelling is the compact one. -/
theorem Spells.filter (h : Spells t s) (hname : IsName t.baseName.toList) :
    s.filter isTypeChar = t.chars := by
  induction h with
  | @named name required mark isMark =>
    have hword : ∀ c ∈ name.toList, isTypeChar c = true := fun c hc =>
      isTypeChar_of_isNameChar (isNameChar_of_mem (show IsName name.toList from hname) hc)
    rw [List.filter_append, List.filter_eq_self.2 hword, isMark.filter, TypeRef.chars]
  | list isElement isBefore isBehind isMark ih =>
    rw [List.filter_cons_of_pos (by decide), List.filter_append, List.filter_append,
      List.filter_append, filter_blanks isBefore, filter_blanks isBehind, ih hname,
      List.nil_append, List.nil_append, List.filter_cons_of_pos (by decide), isMark.filter,
      TypeRef.chars, List.cons_append]

theorem SpellsMark.isBlank_or (h : SpellsMark required mark) {c : Char} (hc : c ∈ mark) :
    isBlank c = true ∨ isTypeChar c = true := by
  cases h with
  | none => cases hc
  | some isBlank =>
    rcases List.mem_append.1 hc with hc | hc
    · exact .inl (isBlank c hc)
    · rw [List.mem_singleton.1 hc]
      exact .inr (by decide)

theorem Spells.isBlank_or (h : Spells t s) (hname : IsName t.baseName.toList) {c : Char}
    (hc : c ∈ s) : isBlank c = true ∨ isTypeChar c = true := by
  induction h with
  | named isMark =>
    rcases List.mem_append.1 hc with hc | hc
    · exact .inr (isTypeChar_of_isNameChar (isNameChar_of_mem hname hc))
    · exact isMark.isBlank_or hc
  | list isElement isBefore isBehind isMark ih =>
    simp only [List.mem_cons, List.mem_append] at hc
    rcases hc with rfl | hc | hc | hc | rfl | hc
    · exact .inr (by decide)
    · exact .inl (isBefore c hc)
    · exact ih hname hc
    · exact .inl (isBehind c hc)
    · exact .inr (by decide)
    · exact isMark.isBlank_or hc

/-- A spelling begins and ends with type characters. -/
theorem Spells.head?_eq (h : Spells t s) (hname : IsName t.baseName.toList) :
    ∃ c, s.head? = some c ∧ isTypeChar c = true := by
  cases h with
  | @named name required mark isMark =>
    obtain ⟨c, more, hmore⟩ : ∃ c more, name.toList = c :: more :=
      List.exists_cons_of_ne_nil (ne_nil_of_isName hname)
    refine ⟨c, by rw [hmore]; rfl, isTypeChar_of_isNameChar ?_⟩
    refine isNameChar_of_mem (show IsName name.toList from hname) ?_
    rw [hmore]
    exact List.mem_cons_self
  | list => exact ⟨'[', rfl, by decide⟩

theorem Spells.getLast?_eq (h : Spells t s) (hname : IsName t.baseName.toList) :
    ∃ c, s.getLast? = some c ∧ isTypeChar c = true := by
  have hmark : ∀ {required : Bool} {mark : List Char}, SpellsMark required mark →
      mark = [] ∨ mark.getLast? = some '!' := by
    intro required mark isMark
    cases isMark with
    | none => exact .inl rfl
    | some => exact .inr List.getLast?_concat
  cases h with
  | named isMark =>
    rcases hmark isMark with rfl | hlast
    · have hne := ne_nil_of_isName hname
      refine ⟨_, by rw [List.append_nil]; exact List.getLast?_eq_some_getLast hne, ?_⟩
      exact isTypeChar_of_isNameChar (isNameChar_of_mem hname (List.getLast_mem hne))
    · exact ⟨'!', by rw [List.getLast?_append, hlast]; rfl, by decide⟩
  | list isElement isBefore isBehind isMark =>
    rcases hmark isMark with rfl | hlast
    · exact ⟨']', by simp [List.getLast?_append, List.getLast?_cons], by decide⟩
    · exact ⟨'!', by simp [List.getLast?_append, List.getLast?_cons, hlast], by decide⟩

/-- What is behind the first white space is nothing, or it has type characters in it. -/
theorem eq_nil_of_dropWhile_blanks {c : Char} (hlast : s.getLast? = some c)
    (hc : isTypeChar c = true) (h : ∀ d ∈ s.dropWhile isTypeChar, isTypeChar d = false) :
    s.dropWhile isTypeChar = [] := by
  by_contra hne
  have hmem := List.mem_of_getLast?
    (getLast?_of_suffix (List.dropWhile_suffix isTypeChar) hne hlast)
  rw [h c hmem] at hc
  cases hc

/-- Only the compact spelling ends at its first white space. -/
theorem Spells.takeWhile_eq_chars_iff (h : Spells t s) (hname : IsName t.baseName.toList) :
    s.takeWhile isTypeChar = t.chars ↔ s = t.chars := by
  constructor
  · intro htake
    obtain ⟨c, hlast, hc⟩ := h.getLast?_eq hname
    have hfilter := h.filter hname
    rw [← List.takeWhile_append_dropWhile (p := isTypeChar) (l := s), List.filter_append,
      List.filter_eq_self.2 fun d hd => List.mem_takeWhile_imp hd, htake] at hfilter
    have hrest := List.filter_eq_nil_iff.1 (List.append_right_eq_self.1 hfilter)
    have hnil := eq_nil_of_dropWhile_blanks hlast hc fun d hd => by simpa using hrest d hd
    calc s = s.takeWhile isTypeChar ++ s.dropWhile isTypeChar :=
          List.takeWhile_append_dropWhile.symm
      _ = t.chars := by rw [hnil, List.append_nil, htake]
  · rintro rfl
    exact List.takeWhile_eq_self_iff.2 fun c hc => isTypeChar_of_mem hname hc

end Spellings

/-! ## Types in their places -/

/-- A place between two braces, not those of an enum, for a type.  What is behind it does not make
the type longer, and is not the list or the type of a field whose name is missing. -/
structure TypePlace extends Cut where
  head : Stops isTypeChar second
  next : Stops isOpening ((directiveRun second).2.dropWhile isBlank)
  notEnum : ∀ block ∈ blocks (clean before ++ clean behind), block.keyword = .enum →
    block.body ≠ first ++ second

section Places

variable {t : TypeRef} {s second : List Char}

/-- What is behind the first white space of a spelling is passed over. -/
theorem Spells.passed (h : Spells t s) (hname : IsName t.baseName.toList)
    (hhead : Stops isTypeChar second)
    (hnext : Stops isOpening ((directiveRun second).2.dropWhile isBlank)) :
    Passed (s.dropWhile isTypeChar) second := by
  have hinert : ∀ c ∈ s.dropWhile isTypeChar, isOpening c = false ∧ c ≠ ')' := by
    intro c hc
    rcases h.isBlank_or hname ((List.dropWhile_suffix isTypeChar).subset hc) with hb | ht
    · exact ⟨isOpening_of_class hb (by decide) (by decide), ne_of_class hb (by decide)⟩
    · exact ⟨isOpening_of_class ht (by decide) (by decide), ne_of_class ht (by decide)⟩
  by_cases hnil : s.dropWhile isTypeChar = []
  · rw [hnil]
    exact ⟨by simp, hhead, hnext⟩
  · obtain ⟨c, hlast, hc⟩ := h.getLast?_eq hname
    refine ⟨hinert, ?_, ?_⟩
    · obtain ⟨d, more, hmore⟩ := List.exists_cons_of_ne_nil hnil
      rw [hmore]
      exact stops_cons (stops_dropWhile isTypeChar s d (by rw [hmore]; rfl)) _
    · -- behind the white space comes more of the type, so no directive
      have hblank := isBlank_of_apart (fun _ => isTypeChar_of_isBlank) hc
      have hrest := getLast?_of_suffix (List.dropWhile_suffix isTypeChar) hnil hlast
      obtain ⟨d, more, hmore⟩ := List.exists_cons_of_ne_nil (dropWhile_ne_nil hrest hblank)
      have hdrop :
          (s.dropWhile isTypeChar ++ second).dropWhile isBlank = d :: (more ++ second) := by
        rw [List.dropWhile_append, hmore]
        rfl
      have hmem : d ∈ s.dropWhile isTypeChar :=
        (List.dropWhile_suffix isBlank).subset (hmore ▸ List.mem_cons_self)
      have hd : d ≠ '@' := by
        rcases h.isBlank_or hname ((List.dropWhile_suffix isTypeChar).subset hmem) with hb | ht
        · exact ne_of_class hb (by decide)
        · exact ne_of_class ht (by decide)
      rw [directiveRun_of_head (by rw [hdrop]; simpa using hd), hdrop]
      exact stops_cons (hinert d hmem).1 _

/-- In every place a schema is read as if a type ended at its first white space. -/
theorem view_spelling (place : TypePlace) (h : Spells t s) (hname : IsName t.baseName.toList)
    (source : String) :
    view source (place.text s) = view source (place.text (s.takeWhile isTypeChar)) := by
  have hkind : ∀ c ∈ s, isOrdinary c = true ∧ isPlain c = true := by
    intro c hc
    rcases h.isBlank_or hname hc with hb | ht
    · exact ⟨isOrdinary_of_isBlank hb, isPlain_of_isBlank hb⟩
    · exact ⟨isOrdinary_of_isTypeChar ht,
        isPlain_of_isBodyChar (isBodyChar_of_isItemChar (isItemChar_of_isTypeChar ht))⟩
  have hfront : ∀ c ∈ s.takeWhile isTypeChar, c ∈ s := fun c hc =>
    (List.takeWhile_prefix isTypeChar).subset hc
  -- the last character of the front is one of the type, so the rest of the type stands at a seam
  obtain ⟨d, hhead, hd⟩ := h.head?_eq hname
  obtain ⟨more, rfl⟩ := List.head?_eq_some_iff.1 hhead
  have hne : (d :: more).takeWhile isTypeChar ≠ [] := by
    rw [List.takeWhile_cons_of_pos hd]
    exact List.cons_ne_nil _ _
  have hlast : (place.first ++ (d :: more).takeWhile isTypeChar).getLast? =
      some (((d :: more).takeWhile isTypeChar).getLast hne) := by
    rw [List.getLast?_append, List.getLast?_eq_some_getLast hne]
    rfl
  have hending : Ending place.second :=
    ⟨stops_isNameChar place.head, stops_isOpening_of_directiveRun place.next⟩
  have hexchange : Exchange (fun _ => ()) (place.first ++ (d :: more).takeWhile isTypeChar) _
      ((d :: more).dropWhile isTypeChar ++ place.second) ([] ++ place.second) :=
    exchange_passed (List.mem_takeWhile_imp (List.getLast_mem hne)) hending
      (h.passed hname place.head place.next) ⟨by simp, place.head, place.next⟩ fun _ _ => rfl
  have hfields := congrArg (List.map Prod.fst) (fields_exchange hexchange (.inr hlast))
  rw [List.map_map, List.map_map, List.append_assoc, ← List.append_assoc (List.takeWhile _ _),
    List.takeWhile_append_dropWhile, List.append_assoc] at hfields
  refine place.view_build (clean_append (fun c hc => (hkind c hc).1) _)
    (clean_append (fun c hc => (hkind c (hfront c hc)).1) _) (fun c hc => (hkind c hc).2)
    (fun c hc => (hkind c (hfront c hc)).2) hfields ?_ source
  intro block hblock hkeyword hbody
  exact absurd hbody (place.notEnum block hblock hkeyword)

end Places

/-! ## A place that shows the type -/

/-- The place for the type of the only field of an input. -/
def onlyField : TypePlace where
  before := "input A\x7bx:".toList
  behind := ['\x7d']
  isText := rfl
  front := "input A".toList
  brace := '\x7b'
  first := "x:".toList
  second := []
  rest := []
  clean_before := clean_eq_self (List.all_eq_true.1 (by decide))
  clean_behind := clean_closing
  isBrace := isPlain_opening
  isPlain_first := List.all_eq_true.1 (by decide)
  isPlain_second := isPlain_nil
  head := stops_nil _
  next := by
    rw [directiveRun_of_head (by simp)]
    exact stops_nil _
  notEnum := by
    intro block hblock hkeyword
    have htext : clean "input A\x7bx:".toList ++ clean ['\x7d'] =
        keywordText .input ++ ' ' :: (['A'] ++ ([] ++ '\x7b' :: ("x:".toList ++ ['\x7d']))) := by
      rw [clean_eq_self (List.all_eq_true.1 (by decide)),
        clean_eq_self (List.all_eq_true.1 (by decide))]
      rfl
    rw [htext, blocks_single .input (by decide) (stops_cons (by decide) _) (by simp)
      (List.all_eq_true.1 (by decide)), List.mem_singleton] at hblock
    rw [hblock] at hkeyword
    cases hkeyword

/-- There, a run of type characters is read as the type. -/
theorem inputs_onlyField {type : List Char} (ht : type ≠ [])
    (htype : ∀ c ∈ type, isTypeChar c = true) (source : String) :
    (view source (onlyField.text type)).inputs =
      .ok [⟨"A", Table.ofList [("x", String.ofList type)]⟩] := by
  have hplain : ∀ c ∈ "x:".toList ++ type, isPlain c = true := by
    intro c hc
    rcases List.mem_append.1 hc with hc | hc
    · exact List.all_eq_true.1 (by decide : "x:".toList.all isPlain = true) c hc
    · exact isPlain_of_isBodyChar (isBodyChar_of_isItemChar (isItemChar_of_isTypeChar (htype c hc)))
  have hclean : clean (onlyField.text type).toList = keywordText .input ++
      ' ' :: (['A'] ++ ([] ++ '\x7b' :: (("x:".toList ++ type) ++ ['\x7d']))) := by
    have htext : onlyField.text type =
        String.ofList ("input A\x7bx:".toList ++ (type ++ ['\x7d'])) := rfl
    have hall : ∀ c ∈ "input A\x7bx:".toList, isOrdinary c = true := List.all_eq_true.1 (by decide)
    rw [htext, String.toList_ofList, clean_append hall,
      clean_append fun c hc => isOrdinary_of_isTypeChar (htype c hc), clean_closing,
      List.append_assoc]
    rfl
  have hblocks := @blocks_single .input ['A'] [] ("x:".toList ++ type) (by decide)
    (stops_cons (by decide) _) (by simp) hplain
  have hfield := @field?_append ['x'] [] [] type [] (by decide) (by simp) (by simp) ht htype
    (stops_nil _)
  have hrun : directiveRun [] = ([], []) := directiveRun_of_head (by simp)
  have hfields : fields ("x:".toList ++ type) = [⟨['x'], none, type, []⟩] := by
    rw [List.append_nil, hrun] at hfield
    rw [show "x:".toList ++ type = ['x'] ++ ([] ++ ':' :: ([] ++ type)) from rfl,
      fields_of_some hfield, fields, occurrences.eq_1]
  simp only [view, inputs, hclean, hblocks, List.filter_cons, decide_true, if_true, List.filter_nil,
    List.map_cons, List.map_nil, hfields, typedTable]

/-- A spelling that is read as the compact one in every place is the compact one. -/
theorem Spells.eq_chars_of_view {t : TypeRef} {s : List Char} (h : Spells t s)
    (hname : IsName t.baseName.toList)
    (hview : view "" (onlyField.text s) = view "" (onlyField.text t.chars)) : s = t.chars := by
  rw [← h.takeWhile_eq_chars_iff hname]
  obtain ⟨c, hhead, hc⟩ := h.head?_eq hname
  obtain ⟨more, rfl⟩ := List.head?_eq_some_iff.1 hhead
  have hfront : (c :: more).takeWhile isTypeChar ≠ [] := by
    rw [List.takeWhile_cons_of_pos hc]
    exact List.cons_ne_nil _ _
  have hchars : t.chars ≠ [] := by
    rw [← h.filter hname, List.filter_cons_of_pos hc]
    exact List.cons_ne_nil _ _
  rw [view_spelling onlyField h hname] at hview
  have hinputs := congrArg SchemaView.inputs hview
  rw [inputs_onlyField hfront fun d hd => List.mem_takeWhile_imp hd,
    inputs_onlyField hchars fun d hd => isTypeChar_of_mem hname hd] at hinputs
  have htable := congrArg (fun input : InputDeclaration => input.fields.get? "x")
    (List.cons.inj (Except.ok.inj hinputs)).1
  simpa [Table.get?_ofList, Entries.get?, String.ofList_inj] using htable

end SchemaAccess.Loose
