import SchemaAccess.Proofs.Fragment.EmptyBlocks
import SchemaAccess.Proofs.Fragment.Indentation

/-!
# The shape of a rendered selection

A selection is rendered entry by entry.  A key that leads to a list of models, built or not, has the
envelope of a page in its block, and any other key has its selection there directly.  Together with
the way in which lines are indented this says all about the lines, whatever the graph and the
selection are.

* `Writes` — the lines of a selection, with one case for each thing that may become of an entry.
* `selectionLines_field`, `selectionLines_key`, `selectionLines_omitted` — the lines, entry by
  entry.
* `writes_iff` — the lines of a selection are those that the relation says, and no others.
* `HasShape`, `hasShape_selectionLines` — everything about the lines of a selection of words.
-/

namespace SchemaAccess

open Outline (indented layoutAll allTexts)
open Selection (listNames)

/-! ## What is written for a selection -/

/-- The lines at a depth of a selection at a level. -/
inductive Writes (g : ModelGraph) :
    (owner : String) → (depth : Nat) → List Selection → List String → Prop
  | nil {owner : String} {depth : Nat} : Writes g owner depth [] []
  /-- A bare name has its line. -/
  | bare {owner : String} {depth : Nat} {name : String} {rest : List Selection}
      {lines : List String} (tail : Writes g owner depth rest lines) :
      Writes g owner depth (.field name :: rest) (indented depth name :: lines)
  /-- An entry without keys, or behind its last key. -/
  | done {owner : String} {depth : Nat} {rest : List Selection} {lines : List String}
      (tail : Writes g owner depth rest lines) : Writes g owner depth (.nested [] :: rest) lines
  /-- A key that leads to a list of models has its selection in the items of a page, with a token
  behind them. -/
  | page {owner : String} {depth : Nat} {key type element : String} {below rest : List Selection}
      {branches : List (String × List Selection)} {inner lines : List String}
      (isField : keyType? g.find? owner key = some type)
      (isList : TypeText.element? type = some element) (isModel : g.isModel element = true)
      (inside : Writes g element (depth + 2) below inner)
      (tail : Writes g owner depth (.nested branches :: rest) lines) :
      Writes g owner depth (.nested ((key, below) :: branches) :: rest)
        (indented depth (key ++ " \x7b") :: indented (depth + 1) "items \x7b" :: inner ++
          [indented (depth + 1) "\x7d", indented (depth + 1) "nextToken", indented depth "\x7d"] ++
          lines)
  /-- Any other key that the model of the level has as a field has its selection in its block. -/
  | plain {owner : String} {depth : Nat} {key type : String} {below rest : List Selection}
      {branches : List (String × List Selection)} {inner lines : List String}
      (isField : keyType? g.find? owner key = some type)
      (notPaged : ∀ element, TypeText.element? type = some element → g.isModel element = false)
      (inside : Writes g (targetType type) (depth + 1) below inner)
      (tail : Writes g owner depth (.nested branches :: rest) lines) :
      Writes g owner depth (.nested ((key, below) :: branches) :: rest)
        (indented depth (key ++ " \x7b") :: inner ++ [indented depth "\x7d"] ++ lines)
  /-- A key that is no field of a built model has no line. -/
  | omitted {owner : String} {depth : Nat} {key : String} {below rest : List Selection}
      {branches : List (String × List Selection)} {lines : List String}
      (noField : keyType? g.find? owner key = none)
      (tail : Writes g owner depth (.nested branches :: rest) lines) :
      Writes g owner depth (.nested ((key, below) :: branches) :: rest) lines

/-- Selections are composed one after the other. -/
theorem compose_append (g : ModelGraph) (owner : String) (first second : List Selection) :
    compose g owner (first ++ second) = compose g owner first ++ compose g owner second := by
  induction first with
  | nil =>
    rw [List.nil_append, compose_nil]
    rfl
  | cons entry first ih =>
    rw [List.cons_append, compose_cons, compose_cons, ih]
    exact congrArg₂ Composed.mk (List.append_assoc ..).symm (List.append_assoc ..).symm

section Lines

variable {g : ModelGraph} {owner key type : String} {depth : Nat} {below rest : List Selection}
  {branches : List (String × List Selection)}

/-! ## The lines entry by entry

Equations for the lines of a selection, one for each case of `Writes`.  In an entry with several
keys the blocks follow each other, so the first key is taken off and the rest stays an entry. -/

theorem selectionLines_nil : selectionLines g owner [] depth = [] := by
  rw [selectionLines, compose_nil, Composed.outlines_empty, Outline.layoutAll_nil]

/-- Selections are rendered one after the other. -/
theorem selectionLines_append (first second : List Selection) :
    selectionLines g owner (first ++ second) depth =
      selectionLines g owner first depth ++ selectionLines g owner second depth := by
  rw [selectionLines, compose_append, Composed.outlines_append, Outline.layoutAll_append]
  rfl

theorem selectionLines_field (name : String) :
    selectionLines g owner (.field name :: rest) depth =
      indented depth name :: selectionLines g owner rest depth := by
  rw [selectionLines, compose_cons, composeEntry_field]
  rfl

theorem selectionLines_nested :
    selectionLines g owner (.nested branches :: rest) depth =
      layoutAll depth (composeBranches g owner branches).outlines ++
        selectionLines g owner rest depth := by
  rw [selectionLines, compose_cons, composeEntry_nested, Composed.outlines_append,
    Outline.layoutAll_append]
  rfl

theorem selectionLines_done :
    selectionLines g owner (.nested [] :: rest) depth = selectionLines g owner rest depth := by
  rw [selectionLines_nested, composeBranches_nil, Composed.outlines_empty, Outline.layoutAll_nil,
    List.nil_append]

/-- **A key of a built model has its block**, with the envelope of a page if its type is a list of
models, and with what is selected below as the lines inside. -/
theorem selectionLines_key (h : keyType? g.find? owner key = some type) :
    selectionLines g owner (.nested ((key, below) :: branches) :: rest) depth =
      framed (isPaged g type) depth key
          (selectionLines g (targetType type) below (innerDepth (isPaged g type) depth)) ++
        selectionLines g owner (.nested branches :: rest) depth := by
  obtain ⟨model, howner, htype⟩ := Option.bind_eq_some_iff.1 h
  rw [selectionLines_nested, composeBranches_cons_of_built howner htype, Composed.outlines_append,
    List.singleton_append, Outline.layoutAll_cons, layout_fieldBlock, List.append_assoc,
    ← selectionLines_nested]
  rfl

/-- A key that has no type at its level has no line. -/
theorem selectionLines_omitted (h : keyType? g.find? owner key = none) :
    selectionLines g owner (.nested ((key, below) :: branches) :: rest) depth =
      selectionLines g owner (.nested branches :: rest) depth := by
  rw [selectionLines_nested, selectionLines_nested]
  cases howner : g.find? owner with
  | none => rw [composeBranches_cons_of_unbuilt howner, Composed.outlines_append, List.nil_append]
  | some model =>
    have htype : model.fieldType? key = none := by
      rwa [keyType?, howner, Option.bind_some] at h
    rw [composeBranches_cons_of_missing howner htype]

/-! ## The relation

The relation and the function are compared in both directions: the function gives lines of the
relation, and the relation gives no others. -/

/-- What a list of models makes of a key. -/
theorem isPaged_of_isModel {element : String} (hlist : TypeText.element? type = some element)
    (hmodel : g.isModel element = true) : isPaged g type = true ∧ targetType type = element := by
  rw [isPaged, targetType, hlist, Option.any_some, Option.getD_some]
  exact ⟨hmodel, rfl⟩

/-- A type is not paged exactly if it is no list of models. -/
theorem isPaged_eq_false_iff : isPaged g type = false ↔
    ∀ element, TypeText.element? type = some element → g.isModel element = false := by
  cases helement : TypeText.element? type with
  | none => simp [isPaged, helement]
  | some element => simp [isPaged, helement]

/-- The block of a key around the lines inside it, in either form. -/
theorem Writes.framed {inner lines : List String} (isField : keyType? g.find? owner key = some type)
    (inside : Writes g (targetType type) (innerDepth (isPaged g type) depth) below inner)
    (tail : Writes g owner depth (.nested branches :: rest) lines) :
    Writes g owner depth (.nested ((key, below) :: branches) :: rest)
      (SchemaAccess.framed (isPaged g type) depth key inner ++ lines) := by
  cases hpaged : isPaged g type with
  | false =>
    rw [hpaged] at inside
    exact .plain isField (isPaged_eq_false_iff.1 hpaged) inside tail
  | true =>
    rw [isPaged, Option.any_eq_true] at hpaged
    obtain ⟨element, hlist, hmodel⟩ := hpaged
    obtain ⟨hpaged, htarget⟩ := isPaged_of_isModel hlist hmodel
    rw [hpaged, htarget] at inside
    exact .page isField hlist hmodel inside tail

mutual

/-- The lines of a selection are what the relation says.  By induction on the selection, with its
branches. -/
theorem writes_selectionLines : ∀ (selection : List Selection) (owner : String) (depth : Nat),
    Writes g owner depth selection (selectionLines g owner selection depth)
  | [], owner, depth => by
      rw [selectionLines_nil]
      exact .nil
  | .field name :: rest, owner, depth => by
      rw [selectionLines_field]
      exact .bare (writes_selectionLines rest owner depth)
  | .nested branches :: rest, owner, depth =>
      writes_nested branches owner depth (writes_selectionLines rest owner depth)

theorem writes_nested : ∀ (branches : List (String × List Selection)) (owner : String)
    (depth : Nat) {rest : List Selection},
      Writes g owner depth rest (selectionLines g owner rest depth) →
      Writes g owner depth (.nested branches :: rest)
        (selectionLines g owner (.nested branches :: rest) depth)
  | [], owner, depth, rest, hrest => by
      rw [selectionLines_done]
      exact .done hrest
  | (key, below) :: branches, owner, depth, rest, hrest => by
      have htail := writes_nested branches owner depth hrest
      cases hkey : keyType? g.find? owner key with
      | none =>
        rw [selectionLines_omitted hkey]
        exact .omitted hkey htail
      | some type =>
        rw [selectionLines_key hkey]
        exact .framed hkey (writes_selectionLines below _ _) htail

end

/-- **The relation says which lines a selection has, and leaves no choice.**  By induction on
the derivation; each of its cases determines the first lines and leaves the same question for
the rest. -/
theorem writes_iff {selection : List Selection} {lines : List String} :
    Writes g owner depth selection lines ↔ lines = selectionLines g owner selection depth := by
  constructor
  · intro h
    induction h with
    | nil => exact selectionLines_nil.symm
    | bare _ ih => rw [selectionLines_field, ih]
    | done _ ih => rw [selectionLines_done, ih]
    | page isField isList isModel _ _ ihInside ihTail =>
      obtain ⟨hpaged, htarget⟩ := isPaged_of_isModel isList isModel
      rw [selectionLines_key isField, hpaged, htarget, ihInside, ihTail]
      rfl
    | plain isField notPaged _ _ ihInside ihTail =>
      rw [selectionLines_key isField, isPaged_eq_false_iff.2 notPaged, ihInside, ihTail]
      rfl
    | omitted noField _ ih => rw [selectionLines_omitted noField, ih]
  · rintro rfl
    exact writes_selectionLines selection owner depth

end Lines

/-! ## The shape of the lines

What is known of the lines is put together: how they are indented, which line comes of which entry,
and how they depend on the depth and on the selections around. -/

/-- Everything about the lines of a selection at a depth. -/
structure HasShape (g : ModelGraph) (owner : String) (selection : List Selection) (depth : Nat) :
    Prop where
  /-- Blocks have their lines one level deeper than their heads and their closing braces. -/
  indented : Indented depth (selectionLines g owner selection depth)
  /-- As many braces are closed as are opened. -/
  braces_eq : braces '\x7b' (selectionLines g owner selection depth) =
    braces '\x7d' (selectionLines g owner selection depth)
  /-- A line is indented by its depth and the number of the blocks around it. -/
  hasLevels : Indented.HasLevels depth (selectionLines g owner selection depth)
  /-- Each entry has its lines; a key with a block has a page in it or not. -/
  writes : ∀ lines, Writes g owner depth selection lines ↔
    lines = selectionLines g owner selection depth
  /-- The depth is a margin of two spaces a unit in front of every line. -/
  margin : (selectionLines g owner selection depth).map String.toList =
    (selectionLines g owner selection 0).map fun line =>
      List.replicate (2 * depth) ' ' ++ line.toList
  /-- The lines of another selection come behind those of this one. -/
  append : ∀ other, selectionLines g owner (selection ++ other) depth =
    selectionLines g owner selection depth ++ selectionLines g owner other depth
  /-- The text of the selection has these lines. -/
  text : selectionLines g owner selection depth ≠ [] →
    Text.splitWhere (· == '\n') (selectionText g owner selection depth).toList =
      (selectionLines g owner selection depth).map String.toList

/-- **Whatever the graph is: a selection whose names have neither white space nor braces is
rendered in shape.**  The part about indentation is that of outlines; the part about entries
is `writes_iff`. -/
theorem hasShape_selectionLines {g : ModelGraph} {owner : String} {selection : List Selection}
    (depth : Nat) (hwords : ∀ name ∈ listNames selection, IsWord name) :
    HasShape g owner selection depth := by
  have htexts : ∀ text ∈ allTexts (compose g owner selection).outlines, IsWord text :=
    forall_mem_texts_compose (by decide) (by decide) selection owner hwords
  have hindented : Indented depth (selectionLines g owner selection depth) :=
    Outline.indented_layoutAll _ depth htexts
  exact {
    indented := hindented
    braces_eq := hindented.braces_eq
    hasLevels := hindented.hasLevels
    writes := fun _ => writes_iff
    margin := by
      have hmargin : selectionLines g owner selection depth =
          (selectionLines g owner selection 0).map (Outline.indented depth) :=
        Outline.layoutAll_add depth 0 _
      rw [hmargin, List.map_map]
      exact List.map_congr_left fun line _ => Outline.toList_indented depth line
    append := selectionLines_append selection
    text := fun hne => Text.splitWhere_intercalate hne
      (Outline.ne_break_of_mem_layoutAll fun text htext => (htexts text htext).isPlain) }

/-- The blog of each post of a blog, where posts are not built. -/
theorem hasShape_deepSelection :
    (∀ name ∈ listNames deepSelection, IsWord name) ∧
      HasShape blogsAlone "Blog" deepSelection 1 ∧
      selectionLines blogsAlone "Blog" deepSelection 1 =
        ["  posts \x7b", "    items \x7b", "      id", "    \x7d", "    nextToken", "  \x7d",
          "  id"] := by
  have hwords : ∀ name ∈ listNames deepSelection, IsWord name := by decide
  exact ⟨hwords, hasShape_selectionLines 1 hwords, by decide⟩

end SchemaAccess
