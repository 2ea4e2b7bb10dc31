import Mathlib.Algebra.Order.BigOperators.Group.List
import Mathlib.Algebra.Order.Ring.Nat
import SchemaAccess.Accessor
import SchemaAccess.Proofs.Types.Pages

/-!
# Which parameters are optional

The input object of an accessor and the documentation of input types say of a type whether it can be
left out.  Documentation asks for the mark of the outermost level; the input object takes a mark at
any level for it.  The two differ on lists that can be left out and have something required in them.

* `TypeRef.isMarked` — some level is marked as required.
* `head?_documented_iff` — a documented type begins with a question mark unless it is required.
* `Accessor.DecidesBy` — the input object leaves out what is not required, for some sense of
  required.
* `decidesBy_isMarked`, `decidesBy_isRequired_iff` — for which senses it does so.
* `optional_iff_not_isMarked` — both, and what documentation says.
-/

namespace SchemaAccess

open Text

/-! ## Marks of a tree

A mark can stand behind every level of a type.  `isRequired` asks about the outermost level,
`isMarked` about all of them; they differ on a list that may be missing, with elements that
may not. -/

namespace TypeRef

/-- True if some level is marked as required. -/
def isMarked : TypeRef → Bool
  | named _ required => required
  | list element required => required || element.isMarked

variable {t : TypeRef}

/-- A tree whose outermost level is marked is marked at some level. -/
theorem isMarked_of_isRequired (h : t.isRequired = true) : t.isMarked = true := by
  cases t with
  | named name required => exact h
  | list element required => exact Bool.or_eq_true_iff.2 (.inl h)

/-- Only a list that is not required can have a mark all the same. -/
theorem isMarked_and_not_isRequired_iff :
    (t.isMarked = true ∧ ¬ t.isRequired = true) ↔
      ∃ element, t = list element false ∧ element.isMarked = true := by
  cases t with
  | named name required => simp [isMarked, isRequired]
  | list element required => cases required <;> simp [isMarked, isRequired]

theorem mem_mark_iff {required : Bool} : '!' ∈ mark required ↔ required = true := by
  cases required <;> simp [mark]

/-- The marks of a tree are those in its spelling. -/
theorem mem_chars_iff (h : IsName t.baseName.toList) : '!' ∈ t.chars ↔ t.isMarked = true := by
  induction t with
  | named name required =>
    have hname : '!' ∉ name.toList := fun hmem =>
      absurd (Loose.isNameChar_of_mem h hmem) (by decide)
    rw [chars, List.mem_append, or_iff_right hname, mem_mark_iff, isMarked]
  | list element required ih =>
    have hchars : (list element required).chars =
        '[' :: (element.chars ++ ']' :: mark required) := rfl
    rw [hchars, List.mem_cons, List.mem_append, List.mem_cons, ih h, mem_mark_iff, isMarked,
      Bool.or_eq_true, or_iff_right (by decide), or_iff_right (a := '!' = ']') (by decide), or_comm]

/-- The outermost mark is the last character of the spelling. -/
theorem chars_eq_append_mark (t : TypeRef) :
    t.chars = (t.withRequired false).chars ++ mark t.isRequired := by
  have hmark : mark false = [] := rfl
  cases t with
  | named name required => simp [chars, withRequired, isRequired, hmark]
  | list element required => simp [chars, withRequired, isRequired, hmark]

theorem baseName_withRequired (required : Bool) (t : TypeRef) :
    (t.withRequired required).baseName = t.baseName := by
  cases t <;> rfl

end TypeRef

/-! ## Documented types -/

namespace TypeText

variable {t : TypeRef}

/-- Without its mark a spelling does not end in a mark. -/
theorem dropBack?_mark_chars (h : IsName t.baseName.toList) :
    dropBack? ['!'] t.chars =
      if t.isRequired then some (t.withRequired false).chars else none := by
  have hlast : (t.withRequired false).chars.getLast? ≠ some '!' := by
    intro hmark
    have hdrop := @getLast?_trimEndWhere (· == '!') t.chars '!'
    rw [← dropMarks, dropMarks_chars h] at hdrop
    exact absurd (hdrop hmark) (by decide)
  rw [t.chars_eq_append_mark]
  cases t.isRequired with
  | true => exact dropBack?_eq_some_iff.2 rfl
  | false =>
    refine Option.eq_none_iff_forall_ne_some.2 fun front hfront => hlast ?_
    rw [dropBack?_eq_some_iff, TypeRef.mark, if_neg Bool.false_ne_true, List.append_nil] at hfront
    rw [hfront, List.getLast?_append]
    rfl

theorem isName_documentedName {name : String} (h : IsName name.toList) :
    IsName (documentedName name).toList := by
  unfold documentedName
  split
  · decide
  · split
    · decide
    · split
      · decide
      · split
        · decide
        · exact h

/-- No documented name begins with a question mark. -/
theorem head?_documentedInner_ne (h : IsName t.baseName.toList) :
    (documentedInner t.chars).head? ≠ some '?' := by
  rw [documentedInner, trim_chars h, dropMarks_chars h]
  split
  · exact fun hhead => absurd (Option.some.inj hhead) (by decide)
  · next hnone =>
    cases t with
    | list element required =>
      have hsome : bracketed? (TypeRef.list element false).chars = some element.chars := by
        rw [bracketed?]
        exact dropBack?_eq_some_iff.2 rfl
      rw [TypeRef.withRequired, hsome] at hnone
      cases hnone
    | named name required =>
      have hname :
          String.ofList ((TypeRef.named name required).withRequired false).chars = name := by
        rw [TypeRef.withRequired, TypeRef.chars, TypeRef.mark, if_neg Bool.false_ne_true,
          List.append_nil, String.ofList_toList]
      rw [hname]
      intro hhead
      have hstart : IsName (documentedName name).toList := isName_documentedName h
      cases hd : (documentedName name).toList with
      | nil => rw [hd] at hhead; cases hhead
      | cons c cs =>
        rw [hd, List.head?_cons, Option.some.injEq] at hhead
        rw [hd, hhead] at hstart
        exact absurd hstart.1 (by decide)

/-- A documented type begins with a question mark unless the type is required. -/
theorem head?_documented_iff (h : IsName t.baseName.toList) :
    (documented t.print).toList.head? = some '?' ↔ t.isRequired = false := by
  rw [documented, TypeRef.chars_print, trim_chars h, dropBack?_mark_chars h]
  cases t.isRequired with
  | false => simp
  | true =>
    refine iff_of_false ?_ (by decide)
    have hinner : IsName (t.withRequired false).baseName.toList := by
      rw [TypeRef.baseName_withRequired]
      exact h
    simp only [if_true, String.toList_ofList]
    exact head?_documentedInner_ne hinner

end TypeText

/-! ## Input objects -/

namespace Accessor

/-- An accessor of an operation with type references for the types of its parameters. -/
def typed (kind : Kind) (operation : String) (types : Table TypeRef) : Accessor :=
  ⟨kind, operation, types.map TypeRef.print⟩

/-- A parameter of an input object in which parameters of some types are required. -/
def fieldText (required : TypeRef → Bool) (param : String × TypeRef) : String :=
  param.1 ++ (if required param.2 then "" else "?") ++ ": " ++ param.2.unmarked.print

/-- An input object in which parameters of some types are required. -/
def inputText (required : TypeRef → Bool) (types : Table TypeRef) : String :=
  "\x7b" ++ ", ".intercalate (types.entries.map (fieldText required)) ++ "\x7d"

/-- The input object of an accessor has exactly those parameters without a question mark whose types
are required, each with its type without marks, and cannot be left out if there is one. -/
structure DecidesBy (a : Accessor) (required : TypeRef → Bool) (types : Table TypeRef) : Prop where
  inputSignature : a.inputSignature = inputText required types
  inputRequired : a.inputRequired = true ↔ ∃ type ∈ types.values, required type = true

section Texts

variable {types : Table TypeRef} {required other : TypeRef → Bool}

theorem mem_values {entry : String × TypeRef} (h : entry ∈ types.entries) :
    entry.2 ∈ types.values := List.mem_map_of_mem h

/-- Input objects with the same parameters required are one text. -/
theorem inputText_congr (h : ∀ type ∈ types.values, required type = other type) :
    inputText required types = inputText other types := by
  have hfields : types.entries.map (fieldText required) = types.entries.map (fieldText other) := by
    refine List.map_congr_left fun param hparam => ?_
    rw [fieldText, h param.2 (mem_values hparam), fieldText]
  rw [inputText, hfields, inputText]

theorem length_intercalate (separator : String) : ∀ texts : List String,
    (separator.intercalate texts).length =
      (texts.map String.length).sum + separator.length * (texts.length - 1)
  | [] => rfl
  | [text] => by simp
  | text :: next :: texts => by
      rw [String.intercalate_cons_cons, String.length_append, String.length_append,
        length_intercalate separator (next :: texts)]
      simp only [List.map_cons, List.sum_cons, List.length_cons, Nat.add_sub_cancel, Nat.mul_succ]
      omega

/-- A question mark makes a parameter longer. -/
theorem length_fieldText (required : TypeRef → Bool) (param : String × TypeRef) :
    (fieldText required param).length =
      param.1.length + param.2.unmarked.print.length + if required param.2 then 2 else 3 := by
  have hcolon : ": ".length = 2 := rfl
  have hmark : "?".length = 1 := rfl
  have hnone : "".length = 0 := rfl
  simp only [fieldText, String.length_append]
  cases required param.2 <;> simp only [Bool.false_eq_true, if_false, if_true] <;> omega

/-- An input object with more question marks is longer. -/
theorem length_inputText_lt {type : TypeRef}
    (h : ∀ type : TypeRef, other type = true → required type = true) (htype : type ∈ types.values)
    (hrequired : required type = true) (hother : other type = false) :
    (inputText required types).length < (inputText other types).length := by
  have hle : ∀ param : String × TypeRef,
      (fieldText required param).length ≤ (fieldText other param).length := by
    intro param
    rw [length_fieldText, length_fieldText]
    cases ho : other param.2 with
    | true => rw [h param.2 ho]
    | false => cases required param.2 <;> simp
  obtain ⟨param, hparam, rfl⟩ := List.mem_map.1 htype
  have hlt : (fieldText required param).length < (fieldText other param).length := by
    rw [length_fieldText, length_fieldText, hrequired, hother]
    simp
  have hsum := List.sum_lt_sum _ _ (fun param _ => hle param) ⟨param, hparam, hlt⟩
  simp only [inputText, String.length_append, length_intercalate, List.length_map, List.map_map]
  simp only [Function.comp_def]
  omega

end Texts

variable {kind : Kind} {operation : String} {types : Table TypeRef}

/-- **The text is marked exactly if some level of the tree is**, since neither brackets nor names
have marks of their own. -/
theorem hasMark_print {type : TypeRef} (h : IsName type.baseName.toList) :
    hasMark type.print = type.isMarked := by
  rw [hasMark, TypeRef.chars_print, Bool.eq_iff_iff, List.contains_iff_mem, TypeRef.mem_chars_iff h]

section Identifiers

variable (h : ∀ type ∈ types.values, IsName type.baseName.toList)

include h

/-- A parameter is required if some level of its type is marked. -/
theorem decidesBy_isMarked : (typed kind operation types).DecidesBy TypeRef.isMarked types where
  inputSignature := by
    have hfields : (types.map TypeRef.print).entries.map inputField =
        types.entries.map (fieldText TypeRef.isMarked) := by
      rw [Table.map, List.map_map]
      refine List.map_congr_left fun param hparam => ?_
      have hname := h param.2 (mem_values hparam)
      rw [Function.comp_apply, inputField, hasMark_print hname, TypeText.unmarked_print hname]
      rfl
    rw [Accessor.inputSignature, typed, hfields, inputText]
  inputRequired := by
    have hvalues : (types.map TypeRef.print).values = types.values.map TypeRef.print := by
      rw [Table.values, Table.values, Table.map, List.map_map, List.map_map]
      rfl
    rw [Accessor.inputRequired, typed, hvalues, List.any_map, List.any_eq_true]
    refine exists_congr fun type => and_congr_right fun htype => ?_
    rw [Function.comp_apply, hasMark_print (h type htype)]

/-- The mark of the outermost level decides exactly if no list that can be left out has something
required in it. -/
theorem decidesBy_isRequired_iff :
    (typed kind operation types).DecidesBy TypeRef.isRequired types ↔
      ¬ ∃ element, .list element false ∈ types.values ∧ element.isMarked = true := by
  have hmarked : (typed kind operation types).DecidesBy TypeRef.isMarked types :=
    decidesBy_isMarked h
  have hexists : (∃ element, .list element false ∈ types.values ∧ element.isMarked = true) ↔
      ∃ type ∈ types.values, type.isMarked = true ∧ ¬ type.isRequired = true := by
    simp only [TypeRef.isMarked_and_not_isRequired_iff]
    exact ⟨fun ⟨element, hmem, helement⟩ => ⟨_, hmem, element, rfl, helement⟩,
      fun ⟨_, hmem, element, htype, helement⟩ => ⟨element, htype ▸ hmem, helement⟩⟩
  rw [hexists]
  constructor
  · rintro hrequired ⟨type, htype, hmark, hnot⟩
    have hlt : (inputText TypeRef.isMarked types).length <
        (inputText TypeRef.isRequired types).length :=
      length_inputText_lt (fun _ => TypeRef.isMarked_of_isRequired) htype hmark
        (Bool.eq_false_of_not_eq_true hnot)
    rw [← hmarked.inputSignature, hrequired.inputSignature] at hlt
    exact Nat.lt_irrefl _ hlt
  · intro hnone
    have hsame : ∀ type ∈ types.values, type.isMarked = type.isRequired := by
      intro type htype
      rw [Bool.eq_iff_iff]
      refine ⟨fun hmark => ?_, TypeRef.isMarked_of_isRequired⟩
      by_contra hnot
      exact hnone ⟨type, htype, hmark, hnot⟩
    refine ⟨hmarked.inputSignature.trans (inputText_congr hsame), ?_⟩
    rw [hmarked.inputRequired]
    exact exists_congr fun type => and_congr_right fun htype => by rw [hsame type htype]

end Identifiers

/-- Documentation decides by the mark of the outermost level, and the input object by a mark at any
level, so that they agree exactly if no list that can be left out has something required in it. -/
theorem optional_iff_not_isMarked (h : ∀ type ∈ types.values, IsName type.baseName.toList) :
    (typed kind operation types).DecidesBy TypeRef.isMarked types ∧
    (∀ type ∈ types.values,
      ((TypeText.documented type.print).toList.head? = some '?' ↔ type.isRequired = false)) ∧
    ((typed kind operation types).DecidesBy TypeRef.isRequired types ↔
      ¬ ∃ element, .list element false ∈ types.values ∧ element.isMarked = true) :=
  ⟨decidesBy_isMarked h, fun type htype => TypeText.head?_documented_iff (h type htype),
    decidesBy_isRequired_iff h⟩

/-- A parameter of a list that can be left out and has required elements, between two others. -/
def idsTypes : Table TypeRef :=
  Table.ofList [("filter", .named "ModelBlogFilterInput" false),
    ("ids", .list (.named "ID" true) false), ("owner", .named "ID" true)]

theorem isName_idsTypes : ∀ type ∈ idsTypes.values, IsName type.baseName.toList := by decide

theorem optional_iff_not_isMarked_ids :
    (∀ type ∈ idsTypes.values, IsName type.baseName.toList) ∧
    (typed .list "listBlogs" idsTypes).DecidesBy TypeRef.isMarked idsTypes ∧
    (∀ type ∈ idsTypes.values,
      ((TypeText.documented type.print).toList.head? = some '?' ↔ type.isRequired = false)) ∧
    ((typed .list "listBlogs" idsTypes).DecidesBy TypeRef.isRequired idsTypes ↔
      ¬ ∃ element, .list element false ∈ idsTypes.values ∧ element.isMarked = true) :=
  ⟨isName_idsTypes, optional_iff_not_isMarked isName_idsTypes⟩

/-- The list of required elements is not optional in the input object. -/
theorem not_decidesBy_isRequired_ids :
    ¬ (typed .list "listBlogs" idsTypes).DecidesBy TypeRef.isRequired idsTypes := by
  rw [decidesBy_isRequired_iff isName_idsTypes, not_not]
  exact ⟨.named "ID" true, by decide, rfl⟩

end Accessor

end SchemaAccess
