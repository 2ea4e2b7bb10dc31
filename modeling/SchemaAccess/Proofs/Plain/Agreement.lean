import SchemaAccess.Config.Basic
import SchemaAccess.Generation.Basic
import SchemaAccess.Proofs.Document.Reading
import SchemaAccess.Proofs.Layout.Recovery
import SchemaAccess.Proofs.Plain.Layout

/-!
# The two readings of a plain schema agree

A plain schema spells the tokens of its definitions, so it is parsed as them; it is also a layout of
its definitions, so a search recovers them.  Hence it does not matter how it is read.

* `Schema.spells` — a printed schema spells the tokens of what it defines.
* `parse_print` — a printed schema is parsed as what it defines.
* `readings_agree` — both readings give one view, and one generation.
-/

namespace SchemaAccess.Plain

open Layout Document Text

/-! ## Spelling

Each lemma prints one part of a schema in front of a text that spells some tokens already.  A name
ends where no name character follows, so that the lemmas also say what the next part begins with. -/

section Spelling

variable {depth : Nat} {s : List Char} {ts : List Token}

/-- A name that a name character does not follow. -/
theorem spells_name (name : Name) (ends : Stops isNameChar s) (h : Spells depth s ts) :
    Spells depth (name.chars ++ s) (.name name.string :: ts) := .name name.isName ends h

/-- A type spells its tokens outside any lists of its own if ten more brackets may be open. -/
theorem spells_type (t : PlainType) (hd : depth + maxLists ≤ maxOpen) (ends : Stops isNameChar s)
    (h : Spells depth s ts) : Spells depth (t.type.chars ++ s) (typeTokens t.type ++ ts) :=
  .type t.isName (Nat.le_trans (Nat.add_le_add_left t.shallow depth) hd) ends h

/-- An argument is a name, a colon and a type. -/
theorem spells_argument (a : Argument) (hd : depth + maxLists ≤ maxOpen)
    (ends : Stops isNameChar s) (h : Spells depth s ts) :
    Spells depth (a.text ++ s) (typedNameTokens a.typedName ++ ts) := by
  have htype := spells_type a.type hd ends h
  rw [Argument.text, List.append_assoc]
  exact spells_name a.name (stops_cons (by decide) _)
    (.punct (by decide) rfl (.blank (by decide) htype))

/-- Directives stand behind a space each, so that a name can end before them. -/
theorem spells_directives (ds : List Name) (ends : Stops isNameChar s) (h : Spells depth s ts) :
    Spells depth (directivesText ds ++ s) (directiveTokens (ds.map Name.string) ++ ts) ∧
      Stops isNameChar (directivesText ds ++ s) := by
  induction ds with
  | nil => exact ⟨h, ends⟩
  | cons d ds ih =>
    have htext : directivesText (d :: ds) ++ s =
        ' ' :: '@' :: (d.chars ++ (directivesText ds ++ s)) := by
      simp only [directivesText, List.flatMap_cons, List.append_assoc, List.cons_append]
    rw [htext]
    exact ⟨.blank (by decide) (.punct (by decide) rfl (spells_name d ih.2 ih.1)),
      stops_cons (by decide) _⟩

/-- Arguments with a comma before each. -/
theorem spells_commas (hd : depth + maxLists ≤ maxOpen) (ends : Stops isNameChar s)
    (h : Spells depth s ts) (as : List Argument) :
    Spells depth ((as.map Argument.text).flatMap ([',', ' '] ++ ·) ++ s)
        ((as.map Argument.typedName).flatMap typedNameTokens ++ ts) ∧
      Stops isNameChar ((as.map Argument.text).flatMap ([',', ' '] ++ ·) ++ s) := by
  induction as with
  | nil => exact ⟨h, ends⟩
  | cons a as ih =>
    simp only [List.map_cons, List.flatMap_cons, List.append_assoc]
    exact ⟨.blank (by decide) (.blank (by decide) (spells_argument a hd ih.2 ih.1)),
      stops_cons (by decide) _⟩

/-- The arguments of a field, in parentheses if there are any; inside them one more bracket is
open. -/
theorem spells_arguments (as : List Argument) (hd : depth + 1 + maxLists ≤ maxOpen)
    (ends : Stops isNameChar s) (h : Spells depth s ts) :
    Spells depth (argumentsText as ++ s)
        (argumentTokens (as.map Argument.typedName) ++ ts) ∧
      Stops isNameChar (argumentsText as ++ s) := by
  cases as with
  | nil => exact ⟨h, ends⟩
  | cons a as =>
    have hclose : Spells (depth + 1) (')' :: s) (.punct ')' :: ts) := .punct (by decide) rfl h
    have hcommas := spells_commas hd (stops_cons (by decide) s) hclose as
    have hopen : openAfter? depth (.punct '(') = some (depth + 1) := by
      rw [openAfter?, if_pos (by decide), if_pos (by omega)]
    simp only [argumentsText, commaText, argumentTokens, List.map_cons, List.flatMap_cons,
      List.append_assoc, List.cons_append, List.nil_append]
    exact ⟨.punct (by decide) hopen (spells_argument a hd hcommas.2 hcommas.1),
      stops_cons (by decide) _⟩

theorem spells_field (f : Field) (hd : depth + 1 + maxLists ≤ maxOpen) (ends : Stops isNameChar s)
    (h : Spells depth s ts) :
    Spells depth (f.text ++ s) (fieldTokens f.definition ++ ts) := by
  have hds := spells_directives f.directives ends h
  have htype : Spells depth
      (':' :: ' ' :: (f.type.type.chars ++ (directivesText f.directives ++ s)))
      (.punct ':' :: (typeTokens f.type.type ++
        (directiveTokens (f.directives.map Name.string) ++ ts))) :=
    .punct (by decide) rfl (.blank (by decide) (spells_type f.type (by omega) hds.2 hds.1))
  have has := spells_arguments f.arguments hd (stops_cons (by decide) _) htype
  simp only [Field.text, Field.definition, fieldTokens, List.append_assoc, List.cons_append]
  exact spells_name f.name has.2 has.1

/-! ## Bodies and definitions -/

section Bodies

variable {α : Type} {text : α → List Char} {tokens : α → List Token} (style : Style)

/-- White space begins a line. -/
theorem spells_line (h : Spells depth s ts) : Spells depth (style.line ++ s) ts := by
  refine .blanks (fun c hc => ?_) h
  rcases List.mem_cons.1 hc with rfl | hc
  · decide
  · rw [List.eq_of_mem_replicate hc]
    decide

/-- Items on lines of their own, each of which spells its tokens whatever comes behind it. -/
theorem spells_lines (hitem : ∀ a {s ts}, Stops isNameChar s → Spells depth s ts →
      Spells depth (text a ++ s) (tokens a ++ ts))
    (ends : Stops isNameChar s) (h : Spells depth s ts) (as : List α) :
    Spells depth ((as.map text).flatMap (style.line ++ ·) ++ s) (as.flatMap tokens ++ ts) ∧
      Stops isNameChar ((as.map text).flatMap (style.line ++ ·) ++ s) := by
  induction as with
  | nil => exact ⟨h, ends⟩
  | cons a as ih =>
    simp only [List.map_cons, List.flatMap_cons, List.append_assoc]
    exact ⟨spells_line style (hitem a ih.2 ih.1), stops_cons (by decide) _⟩

/-- Items in braces, outside all other brackets. -/
theorem spells_body (hitem : ∀ a {s ts}, Stops isNameChar s → Spells 1 s ts →
      Spells 1 (text a ++ s) (tokens a ++ ts))
    (h : Spells 0 s ts) (as : List α) :
    Spells 0 (bodyText style (as.map text) ++ s)
      (.punct '\x7b' :: (as.flatMap tokens ++ .punct '\x7d' :: ts)) := by
  have hclose : Spells 1 ('\n' :: '\x7d' :: s) (.punct '\x7d' :: ts) :=
    .blank (by decide) (.punct (by decide) rfl h)
  have hlines := spells_lines style hitem (stops_cons (by decide) _) hclose as
  simp only [bodyText, List.append_assoc, List.cons_append, List.nil_append]
  exact .punct (by decide) rfl hlines.1

theorem spells_definition (keyword : Loose.Keyword) (name : Name) (ds : List Name)
    {texts : List (List Char)} (h : Spells 0 (bodyText style texts ++ s) ts) :
    Spells 0 (definitionText style keyword name ds texts ++ s)
      (.name (String.ofList (Loose.keywordText keyword)) :: .name name.string ::
        (directiveTokens (ds.map Name.string) ++ ts)) := by
  have hds := spells_directives ds (stops_cons (by decide) _) (.blank (by decide) h :
    Spells 0 (' ' :: (bodyText style texts ++ s)) ts)
  simp only [definitionText, List.append_assoc, List.cons_append]
  exact .name (Loose.isName_keyword keyword) (stops_cons (by decide) _)
    (.blank (by decide) (spells_name name hds.2 hds.1))

end Bodies

/-- **A printed definition spells its tokens**, one case for each kind of definition. -/
theorem Definition.spells (style : Style) (d : Definition) (h : Spells 0 s ts) :
    Spells 0 (d.text style ++ s) (definitionTokens d.definition ++ ts) := by
  cases d with
  | object name directives fields =>
    have hbody := spells_body style
      (fun f {_ _} ends h => spells_field f (by decide) ends h) h fields.1
    simp only [Definition.definition, definitionTokens, List.flatMap_map, List.cons_append,
      List.append_assoc, List.nil_append]
    exact spells_definition style .type name directives hbody
  | input name fields =>
    have hbody := spells_body style
      (fun a {_ _} ends h => spells_argument a (by decide) ends h) h fields.1
    simp only [Definition.definition, definitionTokens, List.flatMap_map, List.cons_append,
      List.append_assoc, List.nil_append]
    exact spells_definition style .input name [] hbody
  | enum name values =>
    have hvalue : ∀ (v : Name) {s ts}, Stops isNameChar s → Spells 1 s ts →
        Spells 1 (v.chars ++ s) ([.name v.string] ++ ts) := fun v _ _ ends h =>
      spells_name v ends h
    have hbody := spells_body style hvalue h values.1
    simp only [Definition.definition, definitionTokens, List.flatMap_map, List.cons_append,
      List.append_assoc, List.nil_append]
    exact spells_definition style .enum name [] hbody

end Spelling

/-- A printed schema spells the tokens of what it defines. -/
theorem Schema.spells (style : Style) (s : Schema) :
    Spells 0 (s.text style) (s.definitions.flatMap definitionTokens) := by
  obtain ⟨ds, hne⟩ := s
  simp only [Schema.text, Schema.definitions]
  clear hne
  induction ds with
  | nil => exact .nil
  | cons d ds ih =>
    simp only [List.map_cons, List.flatMap_cons, List.append_assoc]
    refine d.spells style (.blanks (fun c hc => ?_) ih)
    rw [List.eq_of_mem_replicate hc]
    decide

/-! ## Agreement

Both readings of a printed schema are the view of its definitions: the parser gets there through the
tokens, the search through the layout. -/

/-- Plain definitions have members, as the grammar asks of them. -/
theorem Definition.hasBody (d : Definition) : d.definition.HasBody := by
  cases d with
  | object name directives fields => exact fun h => fields.2 (List.map_eq_nil_iff.1 h)
  | input name fields => exact fun h => fields.2 (List.map_eq_nil_iff.1 h)
  | enum name values => exact fun h => values.2 (List.map_eq_nil_iff.1 h)

/-- A printed schema is parsed as what it defines. -/
theorem parse_print (style : Style) (s : Schema) :
    Document.parse (s.print style) = .ok s.definitions := by
  refine parse_spells (fun h => s.2 (List.map_eq_nil_iff.1 h)) (fun d hd => ?_) ?_
  · obtain ⟨d, -, rfl⟩ := List.mem_map.1 hd
    exact d.hasBody
  · rw [Schema.print, String.toList_ofList]
    exact s.spells style

section Readings

variable (sourceStyle buildStyle : Style) (source build : Schema)

/-- A search of printed schemas finds what they define. -/
theorem looseView_print :
    Loose.view (source.print sourceStyle) (build.print buildStyle) =
      Document.view source.definitions build.definitions := by
  rw [← Schema.print_layout, ← Schema.print_layout, view_print, Schema.definitions_layout,
    Schema.definitions_layout]

theorem documentView_print :
    Document.viewOfTexts (source.print sourceStyle) (build.print buildStyle) =
      .ok (Document.view source.definitions build.definitions) := by
  rw [Document.viewOfTexts, Document.read, Document.read, parse_print, parse_print]
  rfl

/-- Printed plain schemas are valid documents, and reading them as documents answers every question
as searching them does; so it does not matter to a generation how they are read. -/
theorem readings_agree :
    SchemaReading.document.view (source.print sourceStyle) (build.print buildStyle) =
        .ok (Loose.view (source.print sourceStyle) (build.print buildStyle)) ∧
      ∀ (buildSet : List String) (fragments : FragmentOverrides) (hooks : HookOverrides),
        (do
          let view ← SchemaReading.document.view (source.print sourceStyle) (build.print buildStyle)
          generate view buildSet fragments hooks) =
        (do
          let view ← SchemaReading.loose.view (source.print sourceStyle) (build.print buildStyle)
          generate view buildSet fragments hooks) := by
  have hview : SchemaReading.document.view (source.print sourceStyle) (build.print buildStyle) =
      .ok (Loose.view (source.print sourceStyle) (build.print buildStyle)) := by
    rw [SchemaReading.view, documentView_print, looseView_print]
  exact ⟨hview, fun buildSet fragments hooks => by rw [hview]; rfl⟩

end Readings

end SchemaAccess.Plain
