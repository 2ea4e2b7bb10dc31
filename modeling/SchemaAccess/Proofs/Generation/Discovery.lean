import SchemaAccess.Proofs.Fragment.Composition
import SchemaAccess.Proofs.Generation.Run

/-!
# What the declared names are used for

A graph knows the names of all declared models, also of those that are not built.  Nothing that is
attached to the graph depends on these names, and what is composed from it asks only whether a name
is among them.  So a generation does not depend on their order.

* `ModelGraph.withDiscovered` — the graph with other declared names.
* `Session.IgnoresDiscovered` — a session goes through in the same way whatever names are declared.
* `compose_withDiscovered` — the same is composed if the same names are declared.
* `Generation.ofState_withDiscovered` — so the same is generated.
-/

namespace SchemaAccess

/-- The graph with other declared names. -/
def ModelGraph.withDiscovered (g : ModelGraph) (names : List String) : ModelGraph :=
  { g with discovered := names }

/-- The state with other declared names. -/
def Session.State.withDiscovered (state : State) (names : List String) : State :=
  { state with graph := state.graph.withDiscovered names }

/-! ## Attachments

The declared names are a field of the graph that no attachment reads or writes.  Saying so of a
session as a whole, `IgnoresDiscovered`, makes it a property that sequences inherit, so that only
the single steps have to be looked at. -/

section Attachments

variable {names : List String}

/-- A fragment that is accepted is accepted with other declared names.  The check of a selection
goes from built model to built model and never asks what is declared. -/
theorem ModelGraph.withDiscovered_addFragment {g after : ModelGraph} {model key : String}
    {selection : List Selection} (h : g.addFragment model key selection = .ok after) :
    (g.withDiscovered names).addFragment model key selection =
      .ok (after.withDiscovered names) := by
  obtain ⟨owner, howner, hknows, rfl⟩ := addFragment_eq_ok_iff.1 h
  have hsame : (g.withDiscovered names).Knows owner selection := by
    refine hknows.mono (fun name target htarget => ⟨target, ?_, rfl⟩) rfl
    exact htarget
  exact addFragment_eq_ok_iff.2 ⟨owner, howner, hsame, rfl⟩

namespace Session

/-- Whenever the session goes through, it goes through with other declared names as well, and leaves
the same but for these names. -/
def IgnoresDiscovered (session : Session Unit) : Prop :=
  ∀ (names : List String) (state after : State), session.execute state = (.ok (), after) →
    session.execute (state.withDiscovered names) = (.ok (), after.withDiscovered names)

/-- Two sessions that do not depend on the declared names do not depend on them one after the
other. -/
theorem IgnoresDiscovered.bind {first : Session Unit} {second : Unit → Session Unit}
    (hfirst : IgnoresDiscovered first) (hsecond : IgnoresDiscovered (second ())) :
    IgnoresDiscovered (first >>= second) := by
  intro names state after h
  obtain ⟨_, middle, hmiddle, hafter⟩ := execute_bind_eq_ok_iff.1 h
  exact execute_bind_eq_ok_iff.2 ⟨(), middle.withDiscovered names,
    hfirst names state middle hmiddle, hsecond names middle after hafter⟩

/-- Operations are attached alike: who owns a return type is told by the built models. -/
theorem attachAll_withDiscovered (owners : ModelGraph) (root : OperationRoot) :
    ∀ (operations : List OperationDeclaration) (state : State),
      attachAll (owners.withDiscovered names) root operations (state.withDiscovered names) =
        (attachAll owners root operations state).withDiscovered names
  | [], _ => rfl
  | operation :: operations, state => by
      have howner : ∀ returns, owner? (owners.withDiscovered names) returns =
          owner? owners returns := fun _ => rfl
      have hfirst : attach (owners.withDiscovered names) root (state.withDiscovered names)
          operation = (attach owners root state operation).withDiscovered names := by
        rw [attach, attach, howner]
        cases owner? owners (TypeText.unmarked operation.returns) <;> rfl
      rw [attachAll, List.foldl_cons, hfirst]
      exact attachAll_withDiscovered owners root operations _

/-- Classifying the operations of a schema does not depend on the declared names. -/
theorem ignoresDiscovered_classify (view : SchemaView) : IgnoresDiscovered (classify view) := by
  intro names state after h
  rw [execute_classify] at h ⊢
  cases hqueries : view.operations .query with
  | error e => rw [hqueries] at h; cases h
  | ok queries =>
    cases hmutations : view.operations .mutation with
    | error e => rw [hqueries, hmutations] at h; cases h
    | ok mutations =>
      rw [hqueries, hmutations] at h
      cases h
      rw [← attachAll_withDiscovered, ← attachAll_withDiscovered]
      rfl

/-- Nor does adding the fragments of one model, by induction on the fragments. -/
theorem ignoresDiscovered_addFragments (model : String) :
    ∀ fragments : List (String × List Selection),
      IgnoresDiscovered (addFragments model fragments)
  | [], _, _, _, h => by cases h; rfl
  | (key, selection) :: fragments, names, _, after, h => by
      obtain ⟨graph, hgraph, hafter⟩ := execute_addFragments_cons_eq_ok_iff.1 h
      exact execute_addFragments_cons_eq_ok_iff.2
        ⟨_, ModelGraph.withDiscovered_addFragment hgraph,
          ignoresDiscovered_addFragments model fragments names _ after hafter⟩

theorem ignoresDiscovered_addHooks (model : String) :
    ∀ hooks : List (String × String), IgnoresDiscovered (addHooks model hooks)
  | [], _, _, _, h => by cases h; rfl
  | (hook, reference) :: hooks, names, _, after, h => by
      rcases execute_addHooks_cons_eq_ok_iff.1 h with
        ⟨hnone, rfl⟩ | ⟨owner, changed, howner, hchanged, hafter⟩
      · exact execute_addHooks_cons_eq_ok_iff.2 (.inl ⟨hnone, rfl⟩)
      · exact execute_addHooks_cons_eq_ok_iff.2 (.inr ⟨owner, changed, howner, hchanged,
          ignoresDiscovered_addHooks model hooks names _ after hafter⟩)

/-- Overrides of either kind do not depend on the declared names if those of one model do not.
Whether a model is built is asked of the models alone. -/
theorem ignoresDiscovered_merge {α : Type} (kind : OverrideKind)
    {attach : String → List (String × α) → Session Unit}
    (hattach : ∀ model overrides, IgnoresDiscovered (attach model overrides)) :
    ∀ document : List (String × Table α), IgnoresDiscovered (merge kind attach document)
  | [], _, _, _, h => by cases h; rfl
  | (model, overrides) :: document, names, state, after, h => by
      have ih : IgnoresDiscovered (merge kind attach document) :=
        ignoresDiscovered_merge kind hattach document
      have hsame : (state.withDiscovered names).graph.isBuilt model = state.graph.isBuilt model :=
        rfl
      cases hbuilt : state.graph.isBuilt model with
      | false =>
        rw [execute_merge_cons_of_unbuilt hbuilt] at h
        rw [execute_merge_cons_of_unbuilt (hsame.trans hbuilt)]
        exact ih names _ after h
      | true =>
        rw [execute_merge_cons_of_built hbuilt] at h
        rw [execute_merge_cons_of_built (hsame.trans hbuilt)]
        exact IgnoresDiscovered.bind (hattach model overrides.entries) ih names state after h

/-- Attaching operations and overrides does not depend on the declared names. -/
theorem ignoresDiscovered_prepare (view : SchemaView) (fragments : FragmentOverrides)
    (hooks : HookOverrides) : IgnoresDiscovered (prepare view fragments hooks) :=
  .bind (ignoresDiscovered_classify view) <|
    .bind (ignoresDiscovered_merge .fragment ignoresDiscovered_addFragments fragments.entries)
      (ignoresDiscovered_merge .hook ignoresDiscovered_addHooks hooks.entries)

end Session

end Attachments

/-! ## What is read off the graph

The one place in which declared names matter is the envelope of a page: a list has one if its
element is a declared model, built or not.  So what is composed depends on which names are declared,
and not on their order or on how often they are. -/

section Composition

variable {g : ModelGraph} {names : List String}

/-- A type is paged or not, whichever of two lists with the same names is declared. -/
theorem isPaged_withDiscovered (h : ∀ name, name ∈ names ↔ name ∈ g.discovered) (type : String) :
    isPaged (g.withDiscovered names) type = isPaged g type := by
  have hmodel : (g.withDiscovered names).isModel = g.isModel := by
    funext name
    rw [Bool.eq_iff_iff, ModelGraph.isModel, ModelGraph.isModel, List.contains_iff_mem,
      List.contains_iff_mem]
    exact h name
  rw [isPaged, isPaged, hmodel]

mutual

/-- **If the same names are declared, the same is composed**: outlines and warnings.  By induction
on the selection, with its branches. -/
theorem compose_withDiscovered (h : ∀ name, name ∈ names ↔ name ∈ g.discovered) :
    ∀ (selection : List Selection) (owner : String),
      compose (g.withDiscovered names) owner selection = compose g owner selection
  | [], _ => by rw [compose_nil, compose_nil]
  | .field _ :: rest, owner => by
      rw [compose_cons, compose_cons, composeEntry_field, composeEntry_field,
        compose_withDiscovered h rest owner]
  | .nested branches :: rest, owner => by
      rw [compose_cons, compose_cons, composeEntry_nested, composeEntry_nested,
        composeBranches_withDiscovered h branches owner, compose_withDiscovered h rest owner]

theorem composeBranches_withDiscovered (h : ∀ name, name ∈ names ↔ name ∈ g.discovered) :
    ∀ (branches : List (String × List Selection)) (owner : String),
      composeBranches (g.withDiscovered names) owner branches = composeBranches g owner branches
  | [], _ => by rw [composeBranches_nil, composeBranches_nil]
  | (key, below) :: branches, owner => by
      have ih := composeBranches_withDiscovered h branches owner
      have hfind : (g.withDiscovered names).find? owner = g.find? owner := rfl
      cases hm : g.find? owner with
      | none =>
        rw [composeBranches_cons_of_unbuilt (hfind.trans hm), composeBranches_cons_of_unbuilt hm,
          ih]
      | some model =>
        cases ht : model.fieldType? key with
        | none =>
          rw [composeBranches_cons_of_missing (hfind.trans hm) ht,
            composeBranches_cons_of_missing hm ht, ih]
        | some type =>
          rw [composeBranches_cons_of_built (hfind.trans hm) ht,
            composeBranches_cons_of_built hm ht, isPaged_withDiscovered h, ih,
            compose_withDiscovered h below]

end

theorem renderFragments_withDiscovered (h : ∀ name, name ∈ names ↔ name ∈ g.discovered)
    (model : String) :
    renderFragments (g.withDiscovered names) model = renderFragments g model := by
  have hfragments : fragmentsOf (g.withDiscovered names) model = fragmentsOf g model := rfl
  rw [renderFragments, renderFragments, hfragments]
  refine List.map_congr_left fun fragment _ => ?_
  simp only [renderFragment, selectionText, selectionLines, compose_withDiscovered h]

theorem fragmentWarnings_withDiscovered (h : ∀ name, name ∈ names ↔ name ∈ g.discovered)
    (model : String) :
    fragmentWarnings (g.withDiscovered names) model = fragmentWarnings g model := by
  have hfragments : fragmentsOf (g.withDiscovered names) model = fragmentsOf g model := rfl
  rw [fragmentWarnings, fragmentWarnings, hfragments]
  exact List.flatMap_congr fun fragment _ => by rw [compose_withDiscovered h]

end Composition

/-- **If the same names are declared, the same is generated.**  With `ignoresDiscovered_prepare`
this makes the order of the declared models invisible in everything that is generated. -/
theorem Generation.ofState_withDiscovered {state : Session.State} {names : List String}
    (h : ∀ name, name ∈ names ↔ name ∈ state.graph.discovered) (enums : List EnumDeclaration)
    (inputs : List InputDeclaration) :
    Generation.ofState (state.withDiscovered names) enums inputs =
      Generation.ofState state enums inputs := by
  have hcollections : collectionOf (state.graph.withDiscovered names) =
      collectionOf state.graph := funext fun model =>
    congrArg (Collection.mk model) (renderFragments_withDiscovered h model.name)
  have hwarnings : fragmentWarnings (state.graph.withDiscovered names) =
      fragmentWarnings state.graph := funext (fragmentWarnings_withDiscovered h)
  simp only [ofState, Session.State.withDiscovered, hcollections, hwarnings]
  rfl

end SchemaAccess
