import SchemaAccess.Proofs.Types.Targets

/-!
# Page types among the type references

The page type of a model is recognised on the text of a type, and the list of the model is put in
its place.  This file says which type references are recognised, and what is read off the list.

* `unmarked_print` — taking the marks out of the text is taking them off the tree.
* `chars_unmarked_eq_iff` — a tree without marks that is spelled as a name is that name.
* `connectionModel?_chars_eq_some_iff` — the type references that are page types.
* `isPageOf_iff` — the model of a page type is the element of the list in its place.
-/

namespace SchemaAccess

open Text

namespace TypeRef

/-- The page type of a model. -/
def page (model : String) : TypeRef := .named ("Model" ++ model ++ "Connection") false

/-- Taking the marks off leaves the name. -/
theorem baseName_unmarked : ∀ t : TypeRef, t.unmarked.baseName = t.baseName
  | .named _ _ => rfl
  | .list element _ => baseName_unmarked element

/-- A tree without marks that is spelled as a name is that name. -/
theorem chars_unmarked_eq_iff {t : TypeRef} {name : String} (hn : IsName name.toList) :
    t.unmarked.chars = name.toList ↔ t.unmarked = .named name false := by
  cases t with
  | named own required => simp [unmarked, chars, mark, String.toList_inj]
  | list element required =>
    simp only [unmarked, reduceCtorEq, iff_false]
    intro h
    have hbracket : '[' ∈ name.toList := h ▸ List.mem_cons_self
    exact absurd (Loose.isNameChar_of_mem hn hbracket) (by decide)

/-- A tree without marks that is spelled as a name in brackets is a list of that name. -/
theorem chars_unmarked_eq_bracketed_iff {t : TypeRef} {name : String}
    (ht : IsName t.baseName.toList) (hn : IsName name.toList) :
    t.unmarked.chars = '[' :: name.toList ++ [']'] ↔
      t.unmarked = .list (.named name false) false := by
  cases t with
  | named own required =>
    simp only [unmarked, reduceCtorEq, iff_false]
    intro h
    have hbracket : '[' ∈ own.toList := by
      have hchars : own.toList ++ [] = '[' :: name.toList ++ [']'] := h
      rw [List.append_nil] at hchars
      exact hchars ▸ List.mem_cons_self
    exact absurd (Loose.isNameChar_of_mem ht hbracket) (by decide)
  | list element required =>
    have hinner : (TypeRef.list element required).unmarked.chars =
        '[' :: (element.unmarked.chars ++ [']']) := rfl
    rw [hinner, List.cons_append, List.cons.injEq, List.append_left_inj, chars_unmarked_eq_iff hn,
      unmarked, TypeRef.list.injEq]
    exact ⟨fun h => ⟨h.2, rfl⟩, fun h => ⟨rfl, h.1⟩⟩

end TypeRef

namespace TypeText

variable {t : TypeRef}

theorem filter_marks_name {name : List Char} (h : IsName name) :
    name.filter (· ≠ '!') = name :=
  List.filter_eq_self.2 fun _ hc =>
    decide_eq_true (ne_of_class (Loose.isNameChar_of_mem h hc) (by decide))

/-- The marks in a spelling are those of its levels. -/
theorem filter_marks_chars (h : IsName t.baseName.toList) :
    t.chars.filter (· ≠ '!') = t.unmarked.chars := by
  have hmark : ∀ required, (TypeRef.mark required).filter (· ≠ '!') = [] := by decide
  induction t with
  | named name required =>
    rw [TypeRef.chars, List.filter_append, hmark, @filter_marks_name name.toList h]
    rfl
  | list element required ih =>
    have hlist : (TypeRef.list element required).chars =
        '[' :: (element.chars ++ ']' :: TypeRef.mark required) := rfl
    rw [hlist, List.filter_cons_of_pos (by decide), List.filter_append, ih h,
      List.filter_cons_of_pos (by decide), hmark]
    rfl

/-- Taking the marks out of the text is taking them off the tree. -/
theorem unmarked_print (h : IsName t.baseName.toList) : unmarked t.print = t.unmarked.print := by
  rw [unmarked, TypeRef.chars_print, filter_marks_chars h, TypeRef.print]

/-! ## Page types

A page type is told from its text, without regard to the tree it spells.  These lemmas say which
trees are spelled so. -/

/-- A text without marks is a page type exactly if the name of the model is between `Model` and
`Connection`, and a mark behind it changes nothing. -/
theorem connectionModel?_eq_some_iff {s model : List Char} (hmark : '!' ∉ s) (required : Bool) :
    connectionModel? (s ++ TypeRef.mark required) = some model ↔
      s = "Model".toList ++ (model ++ "Connection".toList) ∧ model ≠ [] ∧
        model.all isNameChar = true := by
  have hname : (dropBack? ['!'] (s ++ TypeRef.mark required)).getD (s ++ TypeRef.mark required) =
      s := by
    cases required with
    | true =>
      rw [show dropBack? ['!'] (s ++ TypeRef.mark true) = some s from dropBack?_eq_some_iff.2 rfl,
        Option.getD_some]
    | false =>
      have hnone : dropBack? ['!'] (s ++ TypeRef.mark false) = none := by
        by_contra hsome
        obtain ⟨front, hfront⟩ := Option.ne_none_iff_exists'.1 hsome
        rw [dropBack?_eq_some_iff, TypeRef.mark, if_neg Bool.false_ne_true,
          List.append_nil] at hfront
        exact hmark (hfront ▸ List.mem_append_right _ List.mem_cons_self)
      rw [hnone, Option.getD_none, TypeRef.mark, if_neg Bool.false_ne_true, List.append_nil]
  rw [connectionModel?, hname]
  simp only [bind, Option.bind_eq_some_iff, dropFront?_eq_some_iff, dropBack?_eq_some_iff,
    Option.ite_none_right_eq_some, Option.some.injEq]
  constructor
  · rintro ⟨_, rfl, _, rfl, hmodel, rfl⟩
    exact ⟨rfl, hmodel⟩
  · rintro ⟨rfl, hmodel⟩
    exact ⟨_, rfl, _, rfl, hmodel, rfl⟩

/-- A bracket in front is no beginning of a page type, whatever is cut off at the end. -/
theorem connectionModel?_bracket (s : List Char) : connectionModel? ('[' :: s) = none := by
  rw [connectionModel?]
  cases hback : dropBack? ['!'] ('[' :: s) with
  | none => rfl
  | some front =>
    have hfront := dropBack?_eq_some_iff.1 hback
    cases front with
    | nil => exact absurd (List.cons.inj hfront).1 (by decide)
    | cons c front =>
      obtain ⟨rfl, -⟩ := List.cons.inj hfront
      rfl

/-- The type references that are page types: no lists, and of the names those that hold the name of
a model between two words. -/
theorem connectionModel?_chars_eq_some_iff (h : IsName t.baseName.toList) {model : List Char} :
    connectionModel? t.chars = some model ↔
      t.unmarked = .page (String.ofList model) ∧ model ≠ [] := by
  cases t with
  | named name required =>
    have hmark : '!' ∉ name.toList := fun hc =>
      absurd (Loose.isNameChar_of_mem h hc) (by decide)
    have hpage : (TypeRef.named name required).unmarked = .page (String.ofList model) ↔
        name.toList = "Model".toList ++ (model ++ "Connection".toList) := by
      rw [TypeRef.unmarked, TypeRef.page, TypeRef.named.injEq, ← String.toList_inj]
      simp
    rw [TypeRef.chars, connectionModel?_eq_some_iff hmark, hpage]
    refine and_congr_right fun hname => ⟨And.left, fun hne => ⟨hne, ?_⟩⟩
    refine List.all_eq_true.2 fun c hc =>
      Loose.isNameChar_of_mem (show IsName name.toList from h) ?_
    rw [hname]
    exact List.mem_append_right _ (List.mem_append_left _ hc)
  | list element required =>
    have hnone : connectionModel? (TypeRef.list element required).chars = none :=
      connectionModel?_bracket (element.chars ++ ']' :: TypeRef.mark required)
    simp [hnone, TypeRef.unmarked, TypeRef.page]

theorem trim_bracketed {name : List Char} (h : ∀ c ∈ name, isNameChar c = true) :
    trim ('[' :: name ++ [']']) = '[' :: name ++ [']'] := by
  refine trimWhere_eq_self fun c hc => ?_
  rcases List.mem_cons.1 hc with rfl | hc
  · decide
  · rcases List.mem_append.1 hc with hc | hc
    · exact isBlank_of_isNameChar (h c hc)
    · obtain rfl := List.mem_singleton.1 hc
      decide

/-- The element of a list of one name. -/
theorem element?_bracketed {name : List Char} (h : ∀ c ∈ name, isNameChar c = true) :
    element? (String.ofList ('[' :: name ++ [']'])) = some (String.ofList name) := by
  have hmarks : dropMarks ('[' :: name ++ [']']) = '[' :: name ++ [']'] := by
    rw [dropMarks, trimEndWhere_append_singleton]
    rfl
  have hinner : bracketed? ('[' :: name ++ [']']) = some name :=
    show dropBack? [']'] (name ++ [']']) = some name from dropBack?_eq_some_iff.2 rfl
  have hname : dropMarks (trim name) = name := by
    rw [trim, trimWhere_eq_self fun c hc => isBlank_of_isNameChar (h c hc)]
    exact trimEndWhere_eq_self fun c hc => beq_eq_false_iff_ne.2 <|
      ne_of_class (h c (List.mem_of_getLast? hc)) (by decide)
  rw [element?, String.toList_ofList, trim_bracketed h, hmarks, hinner, Option.map_some, hname]

/-- The type is a page type, and the list in its place is one of the model. -/
def IsPageOf (model raw : String) : Prop :=
  isConnection raw = true ∧ element? (normalize raw) = some model

instance (model raw : String) : Decidable (IsPageOf model raw) := instDecidableAnd

/-- The model of a page type is the element of the list in its place. -/
theorem isPageOf_iff (h : IsName t.baseName.toList) {model : String} (hm : IsName model.toList) :
    IsPageOf model t.print ↔ t.unmarked = .page model := by
  have hpage : ∀ {found : List Char}, connectionModel? t.chars = some found →
      (IsPageOf model t.print ↔ String.ofList found = model) := by
    intro found hfound
    have hname : IsName ("Model" ++ String.ofList found ++ "Connection").toList := by
      have hbase := t.baseName_unmarked
      rw [((connectionModel?_chars_eq_some_iff h).1 hfound).1] at hbase
      rw [show "Model" ++ String.ofList found ++ "Connection" = t.baseName from hbase]
      exact h
    have hchars : ∀ c ∈ found, isNameChar c = true := fun c hc =>
      Loose.isNameChar_of_mem hname (by simp [hc])
    rw [IsPageOf, isConnection, normalize, TypeRef.chars_print, trim_chars h, hfound]
    simp only [Option.isSome_some, true_and]
    rw [element?_bracketed hchars, Option.some.injEq]
  constructor
  · intro hmodel
    have hsome : (connectionModel? t.chars).isSome = true := by
      have hconnection := hmodel.1
      rwa [isConnection, TypeRef.chars_print, trim_chars h] at hconnection
    obtain ⟨found, hfound⟩ := Option.isSome_iff_exists.1 hsome
    rw [← (hpage hfound).1 hmodel]
    exact ((connectionModel?_chars_eq_some_iff h).1 hfound).1
  · intro hmodel
    have hfound : connectionModel? t.chars = some model.toList := by
      rw [connectionModel?_chars_eq_some_iff h, String.ofList_toList]
      exact ⟨hmodel, Loose.ne_nil_of_isName hm⟩
    exact (hpage hfound).2 String.ofList_toList

end TypeText

end SchemaAccess
