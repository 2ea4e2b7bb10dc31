import SchemaAccess.Proofs.Graph.Attachments
import SchemaAccess.Proofs.Graph.Restriction
import SchemaAccess.Proofs.Session.Owners

/-!
# Attaching to fewer models

Operations and overrides are attached to a graph and to a part of it in the same way.  What belongs
to a model that the part leaves out is passed over there, and all the rest is attached as before, so
the part stays one.

* `restricts_attachAll`, `exists_restricts_of_classify` — operations.
* `Narrows` — whenever a session goes through in a graph, it does in a part, and leaves a part.
* `IsOutside` — a session changes nothing in a part.
* `narrows_merge` — overrides of either kind, if those of one model are as they should be.
* `narrows_mergeFragments`, `narrows_mergeHooks` — the two kinds.
-/

namespace SchemaAccess.Session

open ModelGraph (Restricts)

variable {kept : List String}

/-! ## Operations

Who owns a return type is told by the models of the graph.  In a part of the graph a type may have
no owner any more, but if the names are apart it never gets another one. -/

section Operations

variable {owners fewer : ModelGraph}

/-- **An operation is attached to its model, if the part has it, and to nothing else.**  If the part
has left the owner out, the operation changes a model that is not in the part and leaves a warning
there. -/
theorem restricts_attach (hapart : owners.NamesApart) (howners : Restricts kept owners fewer)
    (root : OperationRoot) (operation : OperationDeclaration) {full part : State}
    (h : Restricts kept full.graph part.graph) :
    Restricts kept (attach owners root full operation).graph
      (attach fewer root part operation).graph := by
  rw [attach, attach, owner?_filter hapart kept.contains howners.models]
  cases owner? owners (TypeText.unmarked operation.returns) with
  | none => exact h
  | some owner =>
    rw [Option.filter_some]
    by_cases hmodel : owner.1 ∈ kept
    · rw [if_pos (List.contains_iff_mem.2 hmodel)]
      exact h.update hmodel fun _ hname => hname
    · rw [if_neg (mt List.contains_iff_mem.1 hmodel)]
      exact h.update_full hmodel fun _ hname => hname

/-- The operations of a root are attached alike, by induction on them. -/
theorem restricts_attachAll (hapart : owners.NamesApart) (howners : Restricts kept owners fewer)
    (root : OperationRoot) : ∀ (operations : List OperationDeclaration) {full part : State},
      Restricts kept full.graph part.graph →
      Restricts kept (attachAll owners root operations full).graph
        (attachAll fewer root operations part).graph
  | [], _, _, h => h
  | operation :: operations, _, _, h =>
      restricts_attachAll hapart howners root operations
        (restricts_attach hapart howners root operation h)

/-- Classifying goes through in a part of a graph whose names are apart, because it fails only if
the schema cannot be asked for operations, which no graph has a say in. -/
theorem exists_restricts_of_classify {view : SchemaView} {full part after : State}
    (hapart : full.graph.NamesApart) (h : Restricts kept full.graph part.graph)
    (hrun : (classify view).execute full = (.ok (), after)) :
    ∃ rest, (classify view).execute part = (.ok (), rest) ∧
      Restricts kept after.graph rest.graph := by
  rw [execute_classify] at hrun ⊢
  cases hqueries : view.operations .query with
  | error e =>
    rw [hqueries] at hrun
    cases hrun
  | ok queries =>
    cases hmutations : view.operations .mutation with
    | error e =>
      rw [hqueries, hmutations] at hrun
      cases hrun
    | ok mutations =>
      rw [hqueries, hmutations] at hrun
      cases hrun
      exact ⟨_, rfl, restricts_attachAll hapart h .mutation mutations
        (restricts_attachAll hapart h .query queries h)⟩

end Operations

/-! ## Sessions in a part

A session on a graph is compared with the same session on a part of it.  It may do the same there,
or nothing at all if what it changes is not in the part. -/

/-- Whenever the session goes through in a graph, it goes through in a part of it and leaves a part
of what is left there. -/
def Narrows (kept : List String) (session : Session Unit) : Prop :=
  ∀ full part after : State, Restricts kept full.graph part.graph →
    session.execute full = (.ok (), after) →
      ∃ rest, session.execute part = (.ok (), rest) ∧ Restricts kept after.graph rest.graph

/-- Whenever the session goes through in a graph, a part of the graph is one still. -/
def IsOutside (kept : List String) (session : Session Unit) : Prop :=
  ∀ (full after : State) (part : ModelGraph), Restricts kept full.graph part →
    session.execute full = (.ok (), after) → Restricts kept after.graph part

/-- Sessions that narrow do so one after the other. -/
theorem Narrows.bind {first : Session Unit} {second : Unit → Session Unit}
    (hfirst : Narrows kept first) (hsecond : Narrows kept (second ())) :
    Narrows kept (first >>= second) := by
  intro full part after h hrun
  obtain ⟨_, middle, hmiddle, hafter⟩ := execute_bind_eq_ok_iff.1 hrun
  obtain ⟨between, hbetween, hb⟩ := hfirst full part middle h hmiddle
  obtain ⟨rest, hrest, hr⟩ := hsecond middle between after hb hafter
  exact ⟨rest, execute_bind_eq_ok_iff.2 ⟨_, between, hbetween, hrest⟩, hr⟩

/-! ## Overrides of one model

Whether the overrides of a model do the same in the part or nothing depends on whether the part has
the model.  Fragments and hooks are treated apart, since they are refused for different reasons. -/

section Model

variable {model : String}

/-- Fragments of a model in the part are added there as well.  A selection that the graph accepts is
accepted by the part, in which fewer levels are checked. -/
theorem narrows_addFragments (hmodel : model ∈ kept) :
    ∀ fragments : List (String × List Selection), Narrows kept (addFragments model fragments)
  | [], _, part, _, h, hrun => by
      cases hrun
      exact ⟨part, rfl, h⟩
  | (key, selection) :: fragments, full, part, after, h, hrun => by
      obtain ⟨graph, hgraph, hafter⟩ := execute_addFragments_cons_eq_ok_iff.1 hrun
      obtain ⟨smaller, hsmaller, hs⟩ := h.addFragment hmodel hgraph
      obtain ⟨rest, hrest, hr⟩ := narrows_addFragments hmodel fragments _
        { part with graph := smaller } after hs hafter
      exact ⟨rest, execute_addFragments_cons_eq_ok_iff.2 ⟨smaller, hsmaller, hrest⟩, hr⟩

/-- Fragments of any other model change nothing in the part. -/
theorem isOutside_addFragments (hmodel : model ∉ kept) :
    ∀ fragments : List (String × List Selection), IsOutside kept (addFragments model fragments)
  | [], _, _, _, h, hrun => by
      cases hrun
      exact h
  | (key, selection) :: fragments, full, after, part, h, hrun => by
      obtain ⟨graph, hgraph, hafter⟩ := execute_addFragments_cons_eq_ok_iff.1 hrun
      exact isOutside_addFragments hmodel fragments _ after part
        (h.addFragment_full hmodel hgraph) hafter

/-- A model with a hook keeps its name. -/
theorem name_of_addHook {g : ModelGraph} {owner after : Model} {hook reference : String}
    (howner : g.find? model = some owner) (h : owner.addHook hook reference = .ok after) :
    after.name = model := by
  rw [Model.name_eq_of_bare_eq (Model.bare_addHook h), ModelGraph.name_eq_of_find? howner]

/-- Hooks of a model in the part are added there as well. -/
theorem narrows_addHooks (hmodel : model ∈ kept) :
    ∀ hooks : List (String × String), Narrows kept (addHooks model hooks)
  | [], _, part, _, h, hrun => by
      cases hrun
      exact ⟨part, rfl, h⟩
  | (hook, reference) :: hooks, full, part, after, h, hrun => by
      have hfind := h.find?_of_mem hmodel
      rcases execute_addHooks_cons_eq_ok_iff.1 hrun with
        ⟨hnone, rfl⟩ | ⟨owner, changed, howner, hchanged, hafter⟩
      · exact ⟨part, execute_addHooks_cons_eq_ok_iff.2 (.inl ⟨hfind.trans hnone, rfl⟩), h⟩
      · obtain ⟨rest, hrest, hr⟩ := narrows_addHooks hmodel hooks _
          { part with graph := part.graph.update model fun _ => changed } after
          (h.update hmodel fun _ _ => name_of_addHook howner hchanged) hafter
        exact ⟨rest, execute_addHooks_cons_eq_ok_iff.2
          (.inr ⟨owner, changed, hfind.trans howner, hchanged, hrest⟩), hr⟩

/-- Hooks of any other model change nothing in the part. -/
theorem isOutside_addHooks (hmodel : model ∉ kept) :
    ∀ hooks : List (String × String), IsOutside kept (addHooks model hooks)
  | [], _, _, _, h, hrun => by
      cases hrun
      exact h
  | (hook, reference) :: hooks, full, after, part, h, hrun => by
      rcases execute_addHooks_cons_eq_ok_iff.1 hrun with
        ⟨-, rfl⟩ | ⟨owner, changed, howner, hchanged, hafter⟩
      · exact h
      · exact isOutside_addHooks hmodel hooks _ after part
          (h.update_full hmodel fun _ _ => name_of_addHook howner hchanged) hafter

end Model

/-! ## Overrides of all models

A document is merged model by model, so each of its entries narrows for one of the two reasons. -/

/-- **Overrides go through in a part** if those of a model in the part do and those of any other
change nothing there.  By induction on the document; an entry of a model that the part leaves out
becomes a warning there. -/
theorem narrows_merge {α : Type} (kind : OverrideKind)
    {attach : String → List (String × α) → Session Unit}
    (hkept : ∀ model ∈ kept, ∀ overrides, Narrows kept (attach model overrides))
    (hother : ∀ model ∉ kept, ∀ overrides, IsOutside kept (attach model overrides)) :
    ∀ document : List (String × Table α), Narrows kept (merge kind attach document)
  | [], _, part, _, h, hrun => by
      cases hrun
      exact ⟨part, rfl, h⟩
  | (model, overrides) :: document, full, part, after, h, hrun => by
      have ih : Narrows kept (merge kind attach document) :=
        narrows_merge kind hkept hother document
      by_cases hmodel : model ∈ kept
      · have hsame : part.graph.isBuilt model = full.graph.isBuilt model := by
          rw [ModelGraph.isBuilt, ModelGraph.isBuilt, h.find?_of_mem hmodel]
        cases hbuilt : full.graph.isBuilt model with
        | false =>
          rw [execute_merge_cons_of_unbuilt hbuilt] at hrun
          rw [execute_merge_cons_of_unbuilt (hsame.trans hbuilt)]
          refine ih _ _ after ?_ hrun
          exact h
        | true =>
          rw [execute_merge_cons_of_built hbuilt] at hrun
          rw [execute_merge_cons_of_built (hsame.trans hbuilt)]
          exact Narrows.bind (hkept model hmodel overrides.entries) ih full part after h hrun
      · have hout : part.graph.isBuilt model = false := by
          rw [ModelGraph.isBuilt, h.find?_of_not_mem hmodel, Option.isSome_none]
        rw [execute_merge_cons_of_unbuilt hout]
        cases hbuilt : full.graph.isBuilt model with
        | false =>
          rw [execute_merge_cons_of_unbuilt hbuilt] at hrun
          refine ih _ _ after ?_ hrun
          exact h
        | true =>
          rw [execute_merge_cons_of_built hbuilt] at hrun
          obtain ⟨_, middle, hmiddle, hafter⟩ := execute_bind_eq_ok_iff.1 hrun
          exact ih middle _ after
            (hother model hmodel overrides.entries full middle part.graph h hmiddle) hafter

theorem narrows_mergeFragments (fragments : FragmentOverrides) :
    Narrows kept (mergeFragments fragments) :=
  narrows_merge .fragment (fun _ hmodel => narrows_addFragments hmodel)
    (fun _ hmodel => isOutside_addFragments hmodel) fragments.entries

theorem narrows_mergeHooks (hooks : HookOverrides) : Narrows kept (mergeHooks hooks) :=
  narrows_merge .hook (fun _ hmodel => narrows_addHooks hmodel)
    (fun _ hmodel => isOutside_addHooks hmodel) hooks.entries

end SchemaAccess.Session
