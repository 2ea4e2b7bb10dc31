import SchemaAccess.Model.Graph

/-!
# Outlines

A selection is written as an outline: lines, and blocks that hold further lines.  The outline of a
selection is found first and laid out afterwards.

* `Outline`, `Outline.layout` — the tree, and its lines at a depth.
* `Composed` — outlines together with the warnings that came up on the way.
* `compose` — the outline of a selection of a model.

A field that leads to a list of models gets the envelope of a page, `items` and `nextToken`,
whether the model is built or not; any other field gets a plain block.  What is selected below a
model that is not built is left out with a warning, since the fields of that model are not known.
-/

namespace SchemaAccess

/-! ## Layout -/

/-- A line, or a block with a head and a body. -/
inductive Outline where
  | line (text : String)
  | block (head : String) (body : List Outline)

namespace Outline

/-- A line indented by two spaces a level. -/
def indented (depth : Nat) (text : String) : String :=
  String.ofList (List.replicate (2 * depth) ' ') ++ text

mutual

/-- The lines of an outline at a depth. -/
def layout (depth : Nat) : Outline → List String
  | line text => [indented depth text]
  | block head body =>
    indented depth (head ++ " \x7b") :: layoutAll (depth + 1) body ++ [indented depth "\x7d"]

/-- The lines of outlines one after the other. -/
def layoutAll (depth : Nat) : List Outline → List String
  | [] => []
  | outline :: outlines => outline.layout depth ++ layoutAll depth outlines

end

end Outline

/-! ## Composition -/

/-- Outlines and the warnings that came up on the way. -/
structure Composed where
  outlines : List Outline
  warnings : List Warning

namespace Composed

/-- Nothing. -/
def empty : Composed := ⟨[], []⟩

/-- One after the other. -/
protected def append (a b : Composed) : Composed :=
  ⟨a.outlines ++ b.outlines, a.warnings ++ b.warnings⟩

instance : Append Composed := ⟨Composed.append⟩

/-- Puts outlines in place of those that there are and keeps the warnings. -/
def wrap (c : Composed) (f : List Outline → List Outline) : Composed := ⟨f c.outlines, c.warnings⟩

end Composed

/-- The type whose fields are selected below a field: the element of a list, one list taken off,
or the named type. -/
def targetType (type : String) : String :=
  (TypeText.element? type).getD (TypeText.baseName type)

/-- True of a list of models, whose fields stand inside the envelope of a page. -/
def isPaged (g : ModelGraph) (type : String) : Bool :=
  (TypeText.element? type).any g.isModel

/-- The block of a field: plain, or with the envelope of a page. -/
def fieldBlock (paged : Bool) (field : String) (body : List Outline) : Outline :=
  if paged then .block field [.block "items" body, .line "nextToken"] else .block field body

mutual

/-- The outline of a selection of a model. -/
def compose (g : ModelGraph) (model : String) : List Selection → Composed
  | [] => .empty
  | entry :: entries => composeEntry g model entry ++ compose g model entries

/-- The outline of one entry. -/
def composeEntry (g : ModelGraph) (model : String) : Selection → Composed
  | .field name => ⟨[.line name], []⟩
  | .nested branches => composeBranches g model branches

/-- The outline of branches.  A field that the model does not have is left out. -/
def composeBranches (g : ModelGraph) (model : String) :
    List (String × List Selection) → Composed
  | [] => .empty
  | (field, below) :: branches =>
    (match g.find? model with
      | none => ⟨[], [.excludedConnection model field]⟩
      | some owner =>
        match owner.fieldType? field with
        | none => .empty
        | some type =>
          (compose g (targetType type) below).wrap fun body =>
            [fieldBlock (isPaged g type) field body]) ++ composeBranches g model branches

end

/-- The lines of a selection of a model at a depth. -/
def selectionLines (g : ModelGraph) (model : String) (selection : List Selection) (depth : Nat) :
    List String :=
  Outline.layoutAll depth (compose g model selection).outlines

/-- The text of a selection of a model at a depth. -/
def selectionText (g : ModelGraph) (model : String) (selection : List Selection) (depth : Nat) :
    String :=
  "\n".intercalate (selectionLines g model selection depth)

end SchemaAccess
