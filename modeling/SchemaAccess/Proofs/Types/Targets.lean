import Mathlib.Tactic.Common
import SchemaAccess.Fragment.Outline
import SchemaAccess.Proofs.Document.Spelling
import SchemaAccess.Proofs.Text.Enclosure

/-!
# The model that a type leads to

A selection below a field is checked against the model that `TypeText.baseName` finds in the type
of the field, inside all brackets and marks.  It is composed against `targetType`, which takes one
list off and no more.  This file says when the two agree.

* `baseName_eq_of_targetType` — whenever the composed model has a name for a name, it is the
  checked one, however the type is spelled.
* `baseName_print`, `element?_print` — both questions, asked of the spelling of a type reference.
* `targetType_print_eq_iff` — on those the two agree up to one list.
-/

namespace SchemaAccess

open Text

namespace TypeText

/-! ## Types in any spelling

`baseName` takes characters off both ends, `targetType` parts of the text one after the other.  What
both take off are brackets, marks and white space, so that they are compared through the texts that
these enclose. -/

/-- No character of a name is taken off when a name is looked for. -/
theorem isWrapping_of_isNameChar {c : Char} (h : isNameChar c = true) : isWrapping c = false := by
  have hne : ∀ d, isNameChar d = false → ¬ (c == d) = true := fun d hd hcd =>
    ne_of_class h hd (beq_iff_eq.1 hcd)
  rw [isWrapping, isBlank_of_isNameChar h, Bool.or_false, Bool.or_eq_false_iff,
    Bool.or_eq_false_iff]
  exact ⟨⟨Bool.eq_false_iff.2 (hne '[' (by decide)), Bool.eq_false_iff.2 (hne ']' (by decide))⟩,
    Bool.eq_false_iff.2 (hne '!' (by decide))⟩

theorem isWrapping_of_isBlank {c : Char} (h : isBlank c = true) : isWrapping c = true := by
  rw [isWrapping, h, Bool.or_true]

theorem isWrapping_of_mark {c : Char} (h : (c == '!') = true) : isWrapping c = true := by
  rw [isWrapping, h, Bool.or_true, Bool.true_or]

/-- The two brackets of a list enclose its inside. -/
theorem encloses_bracketed? {s inner : List Char} (h : bracketed? s = some inner) :
    Encloses isWrapping s inner :=
  ⟨['['], [']'], eq_of_bracketed? h, List.forall_mem_singleton.2 (by decide),
    List.forall_mem_singleton.2 (by decide)⟩

/-- Between a list and its element there are only brackets, marks and white space. -/
theorem encloses_element? {raw element : String} (h : element? raw = some element) :
    Encloses isWrapping raw.toList element.toList := by
  obtain ⟨inner, hinner, rfl⟩ := Option.map_eq_some_iff.1 h
  rw [String.toList_ofList]
  have hmark : ∀ s, Encloses isWrapping s (dropMarks s) := fun s =>
    (encloses_trimEndWhere _ s).mono fun _ => isWrapping_of_mark
  have htrim : ∀ s, Encloses isWrapping s (trim s) := fun s =>
    (encloses_trimWhere _ s).mono fun _ => isWrapping_of_isBlank
  exact (htrim _).trans <| (hmark _).trans <| (encloses_bracketed? hinner).trans <|
    (htrim _).trans (hmark _)

/-- **The name inside a spelling is found** as soon as only brackets, marks and white space are
around it. -/
theorem baseName_eq_of_encloses {raw name : String} (hn : IsName name.toList)
    (h : Encloses isWrapping raw.toList name.toList) : baseName raw = name := by
  rw [baseName, trimWhere_eq_of_encloses h fun c hc =>
    isWrapping_of_isNameChar (Loose.isNameChar_of_mem hn hc), String.ofList_toList]

/-! ## Type references

The spelling of a tree is taken apart from the outside in: its mark, its brackets, and the spelling
of its element. -/

variable {t : TypeRef}

theorem isWrapping_of_mem_mark {required : Bool} {c : Char} (h : c ∈ TypeRef.mark required) :
    isWrapping c = true := by
  cases required with
  | false => exact absurd h List.not_mem_nil
  | true =>
    obtain rfl := List.mem_singleton.1 h
    decide

/-- A type reference is spelled as its name inside brackets and marks. -/
theorem encloses_chars : ∀ t : TypeRef, Encloses isWrapping t.chars t.baseName.toList
  | .named name required =>
      ⟨[], TypeRef.mark required, rfl, by simp, fun _ => isWrapping_of_mem_mark⟩
  | .list element required => by
      have houter : Encloses isWrapping (TypeRef.list element required).chars element.chars :=
        ⟨['['], ']' :: TypeRef.mark required, by simp [TypeRef.chars],
          List.forall_mem_singleton.2 (by decide), fun c hc =>
            (List.mem_cons.1 hc).elim (fun h => h ▸ by decide) isWrapping_of_mem_mark⟩
      exact houter.trans (encloses_chars element)

/-- The name inside all lists is found in the spelling. -/
theorem baseName_print (h : IsName t.baseName.toList) : baseName t.print = t.baseName := by
  refine baseName_eq_of_encloses h ?_
  rw [TypeRef.chars_print]
  exact encloses_chars t

/-- There is no white space around a spelled type. -/
theorem trim_chars (h : IsName t.baseName.toList) : trim t.chars = t.chars :=
  trimWhere_eq_self fun _ hc => isBlank_of_apart (fun _ => Loose.isTypeChar_of_isBlank)
    (Loose.isTypeChar_of_mem h hc)

/-- Marks at the end of a spelling belong to the outermost level. -/
theorem dropMarks_chars (h : IsName t.baseName.toList) :
    dropMarks t.chars = (t.withRequired false).chars := by
  have hmark : ∀ {required : Bool} {c : Char}, c ∈ TypeRef.mark required → (c == '!') = true := by
    intro required c hc
    cases required with
    | false => exact absurd hc List.not_mem_nil
    | true => exact beq_iff_eq.2 (List.mem_singleton.1 hc)
  cases t with
  | named name required =>
    rw [dropMarks, TypeRef.chars, trimEndWhere_append_of_forall _ fun _ => hmark]
    have hname : trimEndWhere (· == '!') name.toList = name.toList :=
      trimEndWhere_eq_self fun c hc => beq_eq_false_iff_ne.2 <|
        ne_of_class (Loose.isNameChar_of_mem h (List.mem_of_getLast? hc)) (by decide)
    rw [hname]
    exact (List.append_nil _).symm
  | list element required =>
    have hsplit : (TypeRef.list element required).chars =
        ('[' :: element.chars ++ [']']) ++ TypeRef.mark required := by simp [TypeRef.chars]
    rw [dropMarks, hsplit, trimEndWhere_append_of_forall _ fun _ => hmark,
      trimEndWhere_append_singleton]
    rfl

/-- The element of a spelled list is its element, spelled without the outermost mark; a named type
has none. -/
theorem element?_print (h : IsName t.baseName.toList) :
    element? t.print =
      match t with
      | .named _ _ => none
      | .list element _ => some (element.withRequired false).print := by
  rw [element?, TypeRef.chars_print, trim_chars h, dropMarks_chars h]
  cases t with
  | named name required =>
    have hnone : bracketed? (TypeRef.named name false).chars = none := by
      by_contra hsome
      obtain ⟨inner, hinner⟩ := Option.ne_none_iff_exists'.1 hsome
      have hbracket : '[' ∈ name.toList ++ [] := by
        rw [show name.toList ++ [] = _ from eq_of_bracketed? hinner]
        exact List.mem_cons_self
      rw [List.append_nil] at hbracket
      exact absurd (Loose.isNameChar_of_mem h hbracket) (by decide)
    exact Option.map_eq_none_iff.2 hnone
  | list element required =>
    have hsome : bracketed? (TypeRef.list element false).chars = some element.chars := by
      rw [bracketed?]
      exact dropBack?_eq_some_iff.2 rfl
    rw [show (TypeRef.list element required).withRequired false = .list element false from rfl,
      hsome, Option.map_some, trim_chars (t := element) h, dropMarks_chars (t := element) h]
    rfl

end TypeText

/-! ## Targets -/

open TypeText

/-- Where the level below a field is composed against a name, it is checked against that name. -/
theorem baseName_eq_of_targetType {type name : String} (hn : IsName name.toList)
    (h : targetType type = name) : baseName type = name := by
  rw [targetType] at h
  cases helement : element? type with
  | none => rwa [helement, Option.getD_none] at h
  | some element =>
    rw [helement, Option.getD_some] at h
    exact baseName_eq_of_encloses hn (h ▸ encloses_element? helement)

section Printed

variable {t : TypeRef}

/-- Composing and checking agree on the target of a type up to one list. -/
theorem targetType_print_eq_iff (h : IsName t.baseName.toList) :
    targetType t.print = t.baseName ↔ t.depth ≤ 1 := by
  rw [targetType, element?_print h, baseName_print h]
  cases t with
  | named name required => simp [TypeRef.depth]
  | list element required =>
    cases element with
    | named name inner =>
      simp [TypeRef.depth, TypeRef.withRequired, TypeRef.print, TypeRef.chars, TypeRef.mark,
        TypeRef.baseName]
    | list innermost inner =>
      simp only [Option.getD_some, TypeRef.withRequired, TypeRef.depth]
      constructor
      · intro heq
        have hbracket : '[' ∈ (TypeRef.list (.list innermost inner) required).baseName.toList := by
          rw [← heq, TypeRef.chars_print]
          exact List.mem_cons_self
        exact absurd (Loose.isNameChar_of_mem h hbracket) (by decide)
      · intro hdepth
        omega

/-- Behind more than one list the composed target is no name. -/
theorem targetType_print_ne {name : String} (h : IsName t.baseName.toList) (hd : 1 < t.depth)
    (hn : IsName name.toList) : targetType t.print ≠ name := by
  intro htarget
  have heq : t.baseName = name := by rw [← baseName_print h, baseName_eq_of_targetType hn htarget]
  exact absurd ((targetType_print_eq_iff h).1 (htarget.trans heq.symm)) (by omega)

end Printed

end SchemaAccess
