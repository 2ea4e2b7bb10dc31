import Mathlib.Data.List.Flatten
import SchemaAccess.Proofs.Fragment.Composition
import SchemaAccess.Proofs.Graph.Restriction

/-!
# Fragments in a part of a graph

A selection that is rendered in a part of a graph has the lines that it has in the full graph, but
for those below keys of models that are left out.

* `AvoidsExcluded` — no key lies under a model that is left out.
* `layoutAll_compose_sublist` — no line is new, moved or indented differently.
* `compose_eq_of_avoidsExcluded` — nothing changes without a key under a model that is left out.
* `lines_renderFragment_sublist`, `renderFragment_eq_of_avoidsExcluded` — the same of fragments.
-/

namespace SchemaAccess

open ModelGraph (Restricts)
open Outline (layoutAll)

variable {kept : List String}

/-! ## Keys under models that are left out

A part of a graph has fewer models built and declares as many.  So a list has its envelope in both,
and what changes is what is below keys of models that are left out. -/

/-- The model that a key lies under is kept, if there is one. -/
def IsKept (kept : List String) (find? : String → Option Model) (owner _key : String)
    (_below : List Selection) : Prop :=
  ∀ model, find? owner = some model → owner ∈ kept

/-- No key lies under a model that can be found but is not kept. -/
def AvoidsExcluded (kept : List String) (find? : String → Option Model) :
    String → List Selection → Prop :=
  ForKeys find? (IsKept kept find?)

/-! ## Lines in a part

The two compositions go through the selection together.  They part only at a key whose model is left
out: in the full graph it has a block, and in the part a warning. -/

variable {full part : ModelGraph}

/-- A list has the envelope of a page in the part if it has it in the full graph, as the same models
are declared. -/
theorem isPaged_eq_of_restricts (h : Restricts kept full part) (type : String) :
    isPaged part type = isPaged full type := by
  have hmodel : part.isModel = full.isModel := funext fun name => by
    rw [ModelGraph.isModel, ModelGraph.isModel, h.discovered]
  rw [isPaged, isPaged, hmodel]

/-- A block around fewer lines has fewer lines, and all of its own. -/
theorem framed_sublist {inner outer : List String} (h : inner.Sublist outer) (paged : Bool)
    (depth : Nat) (field : String) :
    (framed paged depth field inner).Sublist (framed paged depth field outer) := by
  cases paged with
  | false => exact (h.cons_cons _).append_right _
  | true => exact ((h.cons_cons _).cons_cons _).append_right _

mutual

/-- **In a part of a graph a selection has no line that it does not have in the full graph**, and
those that it has in the same order.  By induction on the selection, with its branches. -/
theorem layoutAll_compose_sublist (h : Restricts kept full part) :
    ∀ (selection : List Selection) (owner : String) (depth : Nat),
      (layoutAll depth (compose part owner selection).outlines).Sublist
        (layoutAll depth (compose full owner selection).outlines)
  | [], owner, depth => by
      rw [compose_nil, compose_nil]
  | .field name :: rest, owner, depth => by
      simp only [compose_cons, composeEntry_field, Composed.outlines_append,
        Outline.layoutAll_append]
      exact (layoutAll_compose_sublist h rest owner depth).append_left _
  | .nested branches :: rest, owner, depth => by
      simp only [compose_cons, composeEntry_nested, Composed.outlines_append,
        Outline.layoutAll_append]
      exact (layoutAll_composeBranches_sublist h branches owner depth).append
        (layoutAll_compose_sublist h rest owner depth)

theorem layoutAll_composeBranches_sublist (h : Restricts kept full part) :
    ∀ (branches : List (String × List Selection)) (owner : String) (depth : Nat),
      (layoutAll depth (composeBranches part owner branches).outlines).Sublist
        (layoutAll depth (composeBranches full owner branches).outlines)
  | [], owner, depth => by
      rw [composeBranches_nil, composeBranches_nil]
  | (key, below) :: branches, owner, depth => by
      have ih := layoutAll_composeBranches_sublist h branches owner depth
      cases hpart : part.find? owner with
      | none =>
        rw [composeBranches_of_unbuilt hpart, Outline.layoutAll_nil]
        exact List.nil_sublist _
      | some model =>
        have hfull := h.find?_full hpart
        cases htype : model.fieldType? key with
        | none =>
          rwa [composeBranches_cons_of_missing hpart htype,
            composeBranches_cons_of_missing hfull htype]
        | some type =>
          have hbelow := layoutAll_compose_sublist h below (targetType type)
            (innerDepth (isPaged full type) depth)
          rw [composeBranches_cons_of_built hpart htype, composeBranches_cons_of_built hfull htype,
            isPaged_eq_of_restricts h]
          simp only [Composed.outlines_append, List.singleton_append, Outline.layoutAll_cons,
            layout_fieldBlock]
          exact (framed_sublist hbelow _ _ _).append ih

end

mutual

/-- **A selection without a key under a model that is left out is composed in the part as it is in
the full graph.**  Every key of it lies under a model of the part, or under a name that has no model
in either. -/
theorem compose_eq_of_avoidsExcluded (h : Restricts kept full part) :
    ∀ (selection : List Selection) (owner : String),
      AvoidsExcluded kept full.find? owner selection →
        compose part owner selection = compose full owner selection
  | [], owner, _ => by
      rw [compose_nil, compose_nil]
  | .field name :: rest, owner, ha => by
      rw [AvoidsExcluded, ForKeys] at ha
      rw [compose_cons, compose_cons, composeEntry_field, composeEntry_field,
        compose_eq_of_avoidsExcluded h rest owner ha.2]
  | .nested branches :: rest, owner, ha => by
      rw [AvoidsExcluded, ForKeys, EntryForKeys] at ha
      rw [compose_cons, compose_cons, composeEntry_nested, composeEntry_nested,
        composeBranches_eq_of_avoidsExcluded h branches owner ha.1,
        compose_eq_of_avoidsExcluded h rest owner ha.2]

theorem composeBranches_eq_of_avoidsExcluded (h : Restricts kept full part) :
    ∀ (branches : List (String × List Selection)) (owner : String),
      BranchesForKeys full.find? (IsKept kept full.find?) owner branches →
        composeBranches part owner branches = composeBranches full owner branches
  | [], owner, _ => by
      rw [composeBranches_nil, composeBranches_nil]
  | (key, below) :: branches, owner, ha => by
      rw [BranchesForKeys] at ha
      obtain ⟨⟨hkept, hbelow⟩, hbranches⟩ := ha
      have ih := composeBranches_eq_of_avoidsExcluded h branches owner hbranches
      cases hfull : full.find? owner with
      | none =>
        have hpart : part.find? owner = none := Option.eq_none_iff_forall_ne_some.2 fun model hm =>
          Option.some_ne_none model ((h.find?_full hm).symm.trans hfull)
        rw [composeBranches_cons_of_unbuilt hpart, composeBranches_cons_of_unbuilt hfull, ih]
      | some model =>
        have hpart : part.find? owner = some model :=
          (h.find?_of_mem (hkept model hfull)).trans hfull
        cases htype : model.fieldType? key with
        | none =>
          rw [composeBranches_cons_of_missing hpart htype,
            composeBranches_cons_of_missing hfull htype, ih]
        | some type =>
          have hkey : keyType? full.find? owner key = some type := by
            rw [keyType?, hfull, Option.bind_some, htype]
          rw [composeBranches_cons_of_built hpart htype, composeBranches_cons_of_built hfull htype,
            isPaged_eq_of_restricts h, ih,
            compose_eq_of_avoidsExcluded h below _ (hbelow type hkey)]

end

/-! ## Fragments in a part

What holds of lines holds of the text that is made of them. -/

section Fragments

variable (model key : String) {selection : List Selection}

/-- The lines of a fragment in a part are among its lines in the full graph, in the same order. -/
theorem lines_renderFragment_sublist (h : Restricts kept full part) (selection : List Selection) :
    (renderFragment part model key selection).lines.Sublist
      (renderFragment full model key selection).lines := by
  rw [lines_renderFragment, lines_renderFragment]
  exact (layoutAll_compose_sublist h selection model 1).flatMap _

/-- A fragment without a key under a model that is left out is rendered as in the full graph. -/
theorem renderFragment_eq_of_avoidsExcluded (h : Restricts kept full part)
    (ha : AvoidsExcluded kept full.find? model selection) :
    renderFragment part model key selection = renderFragment full model key selection := by
  simp only [renderFragment, selectionText, selectionLines,
    compose_eq_of_avoidsExcluded h selection model ha]

end Fragments

end SchemaAccess
