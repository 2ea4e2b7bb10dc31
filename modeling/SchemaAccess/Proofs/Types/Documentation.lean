import SchemaAccess.Generation.Basic
import SchemaAccess.Proofs.Table.Entries
import SchemaAccess.Proofs.Types.Targets

/-!
# Documentation of input types

A type is documented from its text, one list at a time: marks are taken off the end, then the
brackets around what is left.  This file says that the text never hides the tree: every spelled type
is documented as the tree says, however its marks are nested, and every input is documented field by
field.

* `MarkedType` — types in which lists and marks nest in any way.
* `MarkedType.documentation` — documentation, said on the tree.
* `documented_print` — it is what the text gives.
* `Documents`, `documents_documentation` — a registry of inputs and its documentation.
-/

namespace SchemaAccess

open Text

/-! ## Types with marks anywhere

The text of a type may have marks where the grammar allows none, such as two of them in a row.  The
trees here spell all such texts, so what is proved of them is not limited to types that could be
parsed. -/

/-- A type in which lists and marks nest in any way, doubled marks included. -/
inductive MarkedType where
  | named (name : String) (isName : IsName name.toList)
  | required (type : MarkedType)
  | list (element : MarkedType)

namespace MarkedType

/-- The spelling, as characters. -/
def chars : MarkedType → List Char
  | named name _ => name.toList
  | required type => type.chars ++ ['!']
  | list element => '[' :: element.chars ++ [']']

/-- The spelling. -/
def print (t : MarkedType) : String := String.ofList t.chars

/-- True if the outermost level is marked as required. -/
def isRequired : MarkedType → Bool
  | required _ => true
  | _ => false

/-- The documentation of a type whose marks have been erased: names as they are documented, lists
as arrays. -/
def unmarkedDocumentation : MarkedType → String
  | named name _ => TypeText.documentedName name
  | required type => type.unmarkedDocumentation
  | list element => "Array<" ++ element.unmarkedDocumentation ++ ">"

/-- The documentation of a type, with a question mark in front if it is not required. -/
def documentation (t : MarkedType) : String :=
  if t.isRequired then t.unmarkedDocumentation else "?" ++ t.unmarkedDocumentation

/-- A type with a mark or without. -/
def withMark (t : MarkedType) (isMarked : Bool) : MarkedType := if isMarked then required t else t

/-- A type reference as such a type. -/
def ofRef : (t : TypeRef) → IsName t.baseName.toList → MarkedType
  | .named name isMarked, h => (named name h).withMark isMarked
  | .list element isMarked, h => (list (ofRef element h)).withMark isMarked

/-- A mark is spelled behind the type. -/
theorem chars_withMark (t : MarkedType) (isMarked : Bool) :
    (t.withMark isMarked).chars = t.chars ++ TypeRef.mark isMarked := by
  cases isMarked with
  | true => rfl
  | false => exact (List.append_nil t.chars).symm

/-- A type reference is spelled alike, level by level. -/
theorem chars_ofRef : ∀ (t : TypeRef) (h : IsName t.baseName.toList), (ofRef t h).chars = t.chars
  | .named name isMarked, h => chars_withMark _ isMarked
  | .list element isMarked, h => by
      rw [ofRef, chars_withMark, chars, chars_ofRef element h, TypeRef.chars, List.append_assoc,
        List.singleton_append]

/-- A type reference is spelled alike. -/
theorem print_ofRef (t : TypeRef) (h : IsName t.baseName.toList) : (ofRef t h).print = t.print := by
  rw [print, chars_ofRef, TypeRef.print]

/-- There is no white space in a spelling, since there is none in a name. -/
theorem isBlank_of_mem {c : Char} : ∀ {t : MarkedType}, c ∈ t.chars → isBlank c = false
  | named _ isName, h => isBlank_of_isNameChar (Loose.isNameChar_of_mem isName h)
  | required type, h => by
      rcases List.mem_append.1 h with h | h
      · exact isBlank_of_mem h
      · rw [List.mem_singleton.1 h]
        decide
  | list element, h => by
      rcases List.mem_append.1 h with h | h
      · rcases List.mem_cons.1 h with rfl | h
        · decide
        · exact isBlank_of_mem h
      · rw [List.mem_singleton.1 h]
        decide

theorem trim_chars (t : MarkedType) : trim t.chars = t.chars :=
  trimWhere_eq_self fun _ => isBlank_of_mem

end MarkedType

/-! ## Documenting a spelled type

The text is documented from the outside to the inside.  At each level marks are taken off first, and
then it is a list if brackets are left and a name if not; the lemmas are one for each case. -/

namespace TypeText

/-- Only what is left without white space and marks decides. -/
theorem documentedInner_congr {s s' : List Char} (h : dropMarks (trim s) = dropMarks (trim s')) :
    documentedInner s = documentedInner s' := by
  rw [documentedInner, documentedInner, h]

/-- Brackets make an array of what is between them. -/
theorem documentedInner_bracketed {s inner : List Char}
    (h : dropMarks (trim s) = '[' :: inner ++ [']']) :
    documentedInner s = "Array<".toList ++ documentedInner inner ++ ['>'] := by
  have hinner : bracketed? (dropMarks (trim s)) = some inner := by
    rw [h]
    exact dropBack?_eq_some_iff.2 rfl
  rw [documentedInner]
  split
  · next found hfound => rw [Option.some.inj (hfound.symm.trans hinner)]
  · next hnone => rw [hinner] at hnone; cases hnone

/-- A name is documented by itself. -/
theorem documentedInner_name {name : String} (h : IsName name.toList) :
    documentedInner name.toList = (documentedName name).toList := by
  have htrim : trim name.toList = name.toList :=
    trimWhere_eq_self fun c hc => isBlank_of_isNameChar (Loose.isNameChar_of_mem h hc)
  have hmarks : dropMarks name.toList = name.toList :=
    trimEndWhere_eq_self fun c hc => beq_eq_false_iff_ne.2 <|
      ne_of_class (Loose.isNameChar_of_mem h (List.mem_of_getLast? hc)) (by decide)
  rw [documentedInner, htrim, hmarks]
  split
  · next inner hinner =>
    have hbracket : '[' ∈ name.toList := eq_of_bracketed? hinner ▸ List.mem_cons_self
    exact absurd (Loose.isNameChar_of_mem h hbracket) (by decide)
  · rw [String.ofList_toList]

/-- **Inside of lists, and behind the outermost mark, a spelled type is documented without marks.**
By induction on the tree: a mark is dropped together with all others at its level, a bracket is
taken off with its partner. -/
theorem documentedInner_chars :
    ∀ t : MarkedType, documentedInner t.chars = t.unmarkedDocumentation.toList
  | .named name isName => documentedInner_name isName
  | .required type => by
      have hdrop : dropMarks (trim (MarkedType.required type).chars) =
          dropMarks (trim type.chars) := by
        rw [MarkedType.trim_chars, MarkedType.trim_chars, MarkedType.chars, dropMarks,
          trimEndWhere_append_singleton]
        rfl
      rw [documentedInner_congr hdrop, documentedInner_chars type]
      rfl
  | .list element => by
      have hdrop : dropMarks (trim (MarkedType.list element).chars) =
          '[' :: element.chars ++ [']'] := by
        rw [MarkedType.trim_chars, MarkedType.chars, dropMarks, trimEndWhere_append_singleton]
        rfl
      rw [documentedInner_bracketed hdrop, documentedInner_chars element]
      simp [MarkedType.unmarkedDocumentation]

/-- The last character of a spelling is a mark exactly if the outermost level has one. -/
theorem dropBack?_chars_eq_none {t : MarkedType} (h : t.isRequired = false) :
    dropBack? ['!'] t.chars = none := by
  refine Option.eq_none_iff_forall_ne_some.2 fun front hfront => ?_
  have hlast : t.chars.getLast? = some '!' := by
    rw [dropBack?_eq_some_iff.1 hfront, List.getLast?_append]
    rfl
  cases t with
  | named name isName =>
    exact absurd (Loose.isNameChar_of_mem isName (List.mem_of_getLast? hlast)) (by decide)
  | required type => cases h
  | list element =>
    rw [MarkedType.chars, List.getLast?_append] at hlast
    cases hlast

/-- **A spelled type is documented as its tree says.**  Only the outermost mark counts, and whether
it is there shows in the last character. -/
theorem documented_print (t : MarkedType) : documented t.print = t.documentation := by
  rw [documented, MarkedType.print, String.toList_ofList, MarkedType.trim_chars,
    ← String.toList_inj,
    MarkedType.documentation]
  cases hrequired : t.isRequired with
  | false =>
    rw [dropBack?_chars_eq_none hrequired]
    simp [documentedInner_chars]
  | true =>
    cases t with
    | required type =>
      have hsome : dropBack? ['!'] (MarkedType.required type).chars = some type.chars :=
        dropBack?_eq_some_iff.2 rfl
      rw [hsome]
      simp [documentedInner_chars, MarkedType.unmarkedDocumentation]
    | named name isName => cases hrequired
    | list element => cases hrequired

end TypeText

/-! ## Documenting inputs

A registry is documented field by field.  What has to be said is that names and order stay and that
each type is documented by itself. -/

/-- A table of documented inputs has the inputs and their fields in the same order, and for each
field the documentation of its type. -/
structure Documents {α : Type} (document : α → String) (inputs : Table (Table α))
    (documented : Table (Table String)) : Prop where
  inputNames : documented.keys = inputs.keys
  fieldNames (input : String) :
    (documented.get? input).map Table.keys = (inputs.get? input).map Table.keys
  types (input field : String) :
    (documented.get? input).bind (·.get? field) =
      ((inputs.get? input).bind (·.get? field)).map document

/-- Mapping over the types of a table of tables documents it. -/
theorem documents_map {α : Type} (document : α → String) (inputs : Table (Table α)) :
    Documents document inputs (inputs.map (·.map document)) where
  inputNames := Table.keys_map _ inputs
  fieldNames input := by
    rw [Table.get?_map, Option.map_map]
    exact congrArg (Option.map · _) (funext (Table.keys_map document))
  types input field := by
    rw [Table.get?_map]
    cases inputs.get? input with
    | none => rfl
    | some fields => exact Table.get?_map document fields field

/-- For spelled types, documentation may be done on the trees. -/
theorem documentation_print (inputs : Table (Table MarkedType)) :
    documentation (inputs.map (·.map MarkedType.print)) =
      inputs.map (·.map MarkedType.documentation) := by
  have hfields : ∀ fields : Table MarkedType,
      (fields.map MarkedType.print).map TypeText.documented =
        fields.map MarkedType.documentation := by
    intro fields
    rw [Table.map_map]
    exact congrArg fields.map (funext TypeText.documented_print)
  rw [documentation, Table.map_map]
  exact congrArg inputs.map (funext hfields)

/-- The documentation of a spelled type mirrors its tree, type references being among these trees,
and documenting inputs does this to every field of every input, whether its type is the spelling of
a tree or not. -/
theorem documents_documentation :
    (∀ (t : TypeRef) (h : IsName t.baseName.toList), (MarkedType.ofRef t h).print = t.print) ∧
    (∀ t : MarkedType, TypeText.documented t.print = t.documentation) ∧
    (∀ inputs : Table (Table MarkedType), Documents MarkedType.documentation inputs
      (documentation (inputs.map (·.map MarkedType.print)))) ∧
    ∀ inputs, Documents TypeText.documented inputs (documentation inputs) := by
  refine ⟨MarkedType.print_ofRef, TypeText.documented_print, fun inputs => ?_,
    documents_map TypeText.documented⟩
  rw [documentation_print]
  exact documents_map MarkedType.documentation inputs

/-- A required list of lists of required identifiers. -/
def idLists : TypeRef := .list (.list (.named "ID" true) false) true

theorem documents_documentation_idLists :
    ∃ h : IsName idLists.baseName.toList, (MarkedType.ofRef idLists h).print = idLists.print ∧
      TypeText.documented idLists.print = "Array<Array<string>>" := by
  have hname : IsName idLists.baseName.toList := by decide
  obtain ⟨hprint, hdocumented, -⟩ := documents_documentation
  refine ⟨hname, hprint idLists hname, ?_⟩
  rw [← hprint idLists hname, hdocumented]
  rfl

end SchemaAccess
