import Mathlib.Tactic.Common
import SchemaAccess.Fragment.Rendered
import SchemaAccess.Proofs.Text.Lines

/-!
# Composing step by step

What is composed for a selection, entry by entry and branch by branch, and the lines that come of
it.  A branch has one of three fates: its model is not built and a warning takes its place, the
model does not have the field, or its block is there with what is selected below.

* `framed`, `layout_fieldBlock` — the lines of a block around those inside it.
* `ForKeys` — a property of all keys of a selection, each with the level that it is composed at.
* `composeBranches_cons_of_unbuilt`, `composeBranches_cons_of_built` — the fates that matter; a
  field that the model does not have is the third.
* `compose_of_unbuilt` — a level whose model is not built has its bare names as lines.
* `lines_renderFragment` — the lines of a rendered body are those of its outlines.
-/

namespace SchemaAccess

/-! ## Lines

An outline is laid out line by line at a depth.  These equations lay out each form of it; with them
the recursion of `layout` is not opened again. -/

namespace Outline

mutual

/-- The texts and heads of an outline, in order. -/
def texts : Outline → List String
  | line text => [text]
  | block head body => head :: allTexts body

/-- The texts and heads of outlines, in order. -/
def allTexts : List Outline → List String
  | [] => []
  | outline :: outlines => outline.texts ++ allTexts outlines

end

/-- The texts of outlines behind each other are those of the first and then those of the others. -/
theorem allTexts_append (as bs : List Outline) :
    allTexts (as ++ bs) = allTexts as ++ allTexts bs := by
  induction as with
  | nil => simp [allTexts]
  | cons a as ih => rw [List.cons_append, allTexts, allTexts, ih, List.append_assoc]

@[simp]
theorem layoutAll_nil (depth : Nat) : layoutAll depth [] = [] := by rw [layoutAll]

@[simp]
theorem layoutAll_cons (depth : Nat) (outline : Outline) (outlines : List Outline) :
    layoutAll depth (outline :: outlines) = outline.layout depth ++ layoutAll depth outlines := by
  rw [layoutAll]

/-- Outlines behind each other are laid out one after the other, at the same depth. -/
@[simp]
theorem layoutAll_append (depth : Nat) (as bs : List Outline) :
    layoutAll depth (as ++ bs) = layoutAll depth as ++ layoutAll depth bs := by
  induction as with
  | nil => rw [layoutAll_nil, List.nil_append, List.nil_append]
  | cons a as ih => rw [List.cons_append, layoutAll_cons, layoutAll_cons, ih, List.append_assoc]

@[simp]
theorem layout_line (depth : Nat) (text : String) :
    (line text).layout depth = [indented depth text] := by rw [layout]

/-- A block is its head, the lines inside it one level deeper, and its closing brace below the
head. -/
theorem layout_block (depth : Nat) (head : String) (body : List Outline) :
    (block head body).layout depth =
      indented depth (head ++ " \x7b") :: layoutAll (depth + 1) body ++
        [indented depth "\x7d"] := by
  rw [layout]

end Outline

open Outline (indented layoutAll)

/-- The depth inside the block of a field at a depth. -/
def innerDepth (paged : Bool) (depth : Nat) : Nat := if paged then depth + 2 else depth + 1

/-- The lines of the block of a field around those inside it. -/
def framed (paged : Bool) (depth : Nat) (field : String) (inner : List String) : List String :=
  if paged then
    indented depth (field ++ " \x7b") :: indented (depth + 1) "items \x7b" :: inner ++
      [indented (depth + 1) "\x7d", indented (depth + 1) "nextToken", indented depth "\x7d"]
  else indented depth (field ++ " \x7b") :: inner ++ [indented depth "\x7d"]

/-- **The block of a field frames the lines inside it.**  A paged field has a second block around
them, and the token for the next page below it. -/
theorem layout_fieldBlock (paged : Bool) (depth : Nat) (field : String) (body : List Outline) :
    (fieldBlock paged field body).layout depth =
      framed paged depth field (layoutAll (innerDepth paged depth) body) := by
  cases paged with
  | false => exact Outline.layout_block depth field body
  | true =>
    have hitems : "items" ++ " \x7b" = "items \x7b" := by decide
    simp [fieldBlock, framed, innerDepth, Outline.layout_block, hitems]

/-! ## Selections

What a selection itself has is told apart from what its branches have: bare names become lines at
its level, and keys become blocks or warnings.  `ForKeys` says a property of every key together with
the level at which it is composed. -/

namespace Selection

/-- The bare names of a selection itself, in order. -/
def bareNames : List Selection → List String
  | [] => []
  | .field name :: rest => name :: bareNames rest
  | .nested _ :: rest => bareNames rest

/-- The keys that are nested in a selection itself, in order. -/
def keys : List Selection → List String
  | [] => []
  | .field _ :: rest => keys rest
  | .nested branches :: rest => Entries.keys branches ++ keys rest

end Selection

section Keys

variable (find? : String → Option Model) (P : String → String → List Selection → Prop)

/-- The type of a key at a level.  Models are found under their names. -/
def keyType? (owner key : String) : Option String :=
  (find? owner).bind fun model => model.fieldType? key

mutual

/-- Every key that comes up when a selection is composed at a level has a property, which may depend
on the level and on what is selected below the key. -/
def ForKeys (owner : String) : List Selection → Prop
  | [] => True
  | entry :: entries => EntryForKeys owner entry ∧ ForKeys owner entries

/-- Every key that comes up when an entry is composed has a property. -/
def EntryForKeys (owner : String) : Selection → Prop
  | .field _ => True
  | .nested branches => BranchesForKeys owner branches

/-- Every key that comes up when branches are composed has a property. -/
def BranchesForKeys (owner : String) : List (String × List Selection) → Prop
  | [] => True
  | (key, below) :: branches =>
    (P owner key below ∧
      ∀ type, keyType? find? owner key = some type → ForKeys (targetType type) below) ∧
    BranchesForKeys owner branches

end

end Keys

/-! ## Outlines and warnings

What is composed is a pair of outlines and warnings, and pairs are joined part by part. -/

namespace Composed

@[simp]
theorem outlines_append (a b : Composed) : (a ++ b).outlines = a.outlines ++ b.outlines := rfl

@[simp]
theorem warnings_append (a b : Composed) : (a ++ b).warnings = a.warnings ++ b.warnings := rfl

@[simp]
theorem outlines_empty : Composed.empty.outlines = [] := rfl

end Composed

section Compose

variable (g : ModelGraph) (owner : String)

@[simp]
theorem compose_nil : compose g owner [] = .empty := by rw [compose]

/-- A selection is composed entry by entry. -/
@[simp]
theorem compose_cons (entry : Selection) (entries : List Selection) :
    compose g owner (entry :: entries) = composeEntry g owner entry ++ compose g owner entries := by
  rw [compose]

@[simp]
theorem composeEntry_field (name : String) :
    composeEntry g owner (.field name) = ⟨[.line name], []⟩ := by rw [composeEntry]

/-- An entry with branches is composed branch by branch. -/
@[simp]
theorem composeEntry_nested (branches : List (String × List Selection)) :
    composeEntry g owner (.nested branches) = composeBranches g owner branches := by
  rw [composeEntry]

@[simp]
theorem composeBranches_nil : composeBranches g owner [] = .empty := by rw [composeBranches]

variable {g owner} {field type : String} {below : List Selection}
  {branches : List (String × List Selection)} {model : Model}

/-- Below a model that is not built a warning takes the place of a branch. -/
theorem composeBranches_cons_of_unbuilt (h : g.find? owner = none) :
    composeBranches g owner ((field, below) :: branches) =
      ⟨[], [.excludedConnection owner field]⟩ ++ composeBranches g owner branches := by
  rw [composeBranches, h]

/-- **A field of a built model has its block**, with what is selected below composed at the level
that the type of the field leads to, built or not. -/
theorem composeBranches_cons_of_built (h : g.find? owner = some model)
    (ht : model.fieldType? field = some type) :
    composeBranches g owner ((field, below) :: branches) =
      ⟨[fieldBlock (isPaged g type) field (compose g (targetType type) below).outlines],
        (compose g (targetType type) below).warnings⟩ ++ composeBranches g owner branches := by
  rw [composeBranches, h]
  simp only [ht]
  rfl

/-- A field that a built model does not have is left out, without a line and without a warning. -/
theorem composeBranches_cons_of_missing (h : g.find? owner = some model)
    (ht : model.fieldType? field = none) :
    composeBranches g owner ((field, below) :: branches) = composeBranches g owner branches := by
  rw [composeBranches, h]
  simp only [ht]
  rfl

/-- A level whose model is not built has a warning for each key and no line for any. -/
theorem composeBranches_of_unbuilt (h : g.find? owner = none) :
    ∀ branches : List (String × List Selection),
      composeBranches g owner branches =
        ⟨[], (Entries.keys branches).map (.excludedConnection owner)⟩
  | [] => by
      rw [composeBranches_nil]
      rfl
  | (key, below) :: branches => by
      rw [composeBranches_cons_of_unbuilt h, composeBranches_of_unbuilt h branches]
      rfl

/-- **A level whose model is not built has a line for each bare name and a warning for each key.**
So the opening of a block may be followed by the lines of such a level, and by nothing if it has no
bare names. -/
theorem compose_of_unbuilt (h : g.find? owner = none) : ∀ selection : List Selection,
    compose g owner selection =
      ⟨(Selection.bareNames selection).map .line,
        (Selection.keys selection).map (.excludedConnection owner)⟩
  | [] => by
      rw [compose_nil]
      rfl
  | .field name :: rest => by
      rw [compose_cons, composeEntry_field, compose_of_unbuilt h rest]
      rfl
  | .nested branches :: rest => by
      rw [compose_cons, composeEntry_nested, composeBranches_of_unbuilt h,
        compose_of_unbuilt h rest, Selection.keys, List.map_append]
      rfl

end Compose

/-! ## Bodies

A body is the lines of its outlines with line feeds between them.  Each line is told by its margin
and its text, so what is said of texts carries over to the characters of a body. -/

namespace Outline

/-- A margin is two spaces for each unit of depth. -/
theorem toList_indented (depth : Nat) (text : String) :
    (indented depth text).toList = List.replicate (2 * depth) ' ' ++ text.toList := by
  rw [indented, String.toList_append, String.toList_ofList]

mutual

/-- Every line is a text, the head of a block with its brace or a closing brace, and is indented at
least by the depth. -/
theorem exists_indented_of_mem_layout : ∀ (outline : Outline) (depth : Nat),
    ∀ row ∈ outline.layout depth, ∃ deeper text, depth ≤ deeper ∧ row = indented deeper text ∧
      (text ∈ outline.texts ∨ text ∈ outline.texts.map (· ++ " \x7b") ∨ text = "\x7d")
  | .line text, depth, row, h => by
      rw [layout_line, List.mem_singleton] at h
      exact ⟨depth, text, Nat.le_refl depth, h, .inl (List.mem_singleton.2 rfl)⟩
  | .block head body, depth, row, h => by
      rw [layout_block, List.mem_append, List.mem_cons, List.mem_singleton] at h
      rw [texts, List.map_cons]
      rcases h with (h | h) | h
      · exact ⟨depth, _, Nat.le_refl depth, h, .inr (.inl List.mem_cons_self)⟩
      · obtain ⟨deeper, text, hd, hrow, htext⟩ :=
          exists_indented_of_mem_layoutAll body (depth + 1) row h
        exact ⟨deeper, text, Nat.le_of_succ_le hd, hrow, htext.imp (List.mem_cons_of_mem _)
          (Or.imp_left (List.mem_cons_of_mem _))⟩
      · exact ⟨depth, _, Nat.le_refl depth, h, .inr (.inr rfl)⟩

theorem exists_indented_of_mem_layoutAll : ∀ (outlines : List Outline) (depth : Nat),
    ∀ row ∈ layoutAll depth outlines, ∃ deeper text, depth ≤ deeper ∧ row = indented deeper text ∧
      (text ∈ allTexts outlines ∨ text ∈ (allTexts outlines).map (· ++ " \x7b") ∨ text = "\x7d")
  | [], depth, row, h => by
      rw [layoutAll_nil] at h
      exact absurd h List.not_mem_nil
  | outline :: outlines, depth, row, h => by
      rw [layoutAll_cons] at h
      rw [allTexts, List.map_append]
      rcases List.mem_append.1 h with h | h
      · obtain ⟨deeper, text, hd, hrow, htext⟩ := exists_indented_of_mem_layout outline depth row h
        exact ⟨deeper, text, hd, hrow, htext.imp (List.mem_append_left _)
          (Or.imp_left (List.mem_append_left _))⟩
      · obtain ⟨deeper, text, hd, hrow, htext⟩ :=
          exists_indented_of_mem_layoutAll outlines depth row h
        exact ⟨deeper, text, hd, hrow, htext.imp (List.mem_append_right _)
          (Or.imp_left (List.mem_append_right _))⟩

end

/-- Behind a margin no line is empty, so no line of a body is lost when it is split at line
feeds. -/
theorem toList_ne_nil_of_mem_layoutAll {outlines : List Outline} {depth : Nat} {row : String}
    (h : row ∈ layoutAll (depth + 1) outlines) : row.toList ≠ [] := by
  obtain ⟨deeper, text, hd, rfl, -⟩ := exists_indented_of_mem_layoutAll _ _ row h
  rw [toList_indented, show 2 * deeper = (2 * deeper - 1) + 1 by omega, List.replicate_succ]
  exact List.cons_ne_nil _ _

end Outline

/-- The lines of the body of a fragment. -/
def RenderedFragment.lines (fragment : RenderedFragment) : List (List Char) :=
  Text.lines fragment.body.toList

/-- The lines of a rendered body are those of the lines that are written. -/
theorem lines_renderFragment (g : ModelGraph) (model key : String) (selection : List Selection) :
    (renderFragment g model key selection).lines =
      (selectionLines g model selection 1).flatMap fun line => Text.lines line.toList :=
  Text.lines_intercalate fun _ hrow => Outline.toList_ne_nil_of_mem_layoutAll hrow

end SchemaAccess
