import SchemaAccess.Generation.Basic
import SchemaAccess.Proofs.Fragment.Rendering

/-!
# A generation that goes through

Generating asks the schemas, builds the graph, attaches operations and overrides to it, and reads
everything else off the graph in the end.  This file says when that goes through and which models
come out, so that no other proof follows the run itself.

* `Generation.ofState` — what is read off the graph.
* `generate_eq_ok_iff` — what a generation consists of when it goes through.
* `keepsBuild_of_prepare` — attaching keeps the models that were built.
* `Generation.modelNames`, `selectedNames`, `modelNames_perm_of_generate` — one model comes out for
  each declaration in the build set.
-/

namespace SchemaAccess

/-! ## What is read off the graph -/

/-- What is generated from the state behind all attachments. -/
def Generation.ofState (state : Session.State) (enums : List EnumDeclaration)
    (inputs : List InputDeclaration) : Generation where
  collections := state.graph.models.map (collectionOf state.graph)
  enums := enumTable enums
  inputs := documentation (inputTable inputs)
  queryInputs := SchemaAccess.queryInputs state.graph.models
  warnings := state.warnings ++
    state.graph.models.flatMap fun model => fragmentWarnings state.graph model.name

/-- A generation goes through exactly if the schemas answer, the graph can be built and everything
can be attached to it. -/
theorem generate_eq_ok_iff {view : SchemaView} {buildSet : List String}
    {fragments : FragmentOverrides} {hooks : HookOverrides} {generation : Generation} :
    generate view buildSet fragments hooks = .ok generation ↔
      ∃ declarations enums graph state inputs, view.models = .ok declarations ∧
        view.enums = .ok enums ∧
        ModelGraph.build view buildSet declarations (enumTable enums).keys = .ok graph ∧
        (prepare view fragments hooks).execute ⟨graph, []⟩ = (.ok (), state) ∧
        view.inputs = .ok inputs ∧ generation = .ofState state enums inputs := by
  simp only [generate, ModelGraph.bind_eq_ok_iff]
  constructor
  · rintro ⟨declarations, hmodels, enums, henums, graph, hgraph, _, hrun, inputs, hinputs, hall⟩
    exact ⟨declarations, enums, graph, _, inputs, hmodels, henums, hgraph, Prod.ext hrun rfl,
      hinputs, (Except.ok.inj hall).symm⟩
  · rintro ⟨declarations, enums, graph, state, inputs, hmodels, henums, hgraph, hrun, hinputs, rfl⟩
    refine ⟨declarations, hmodels, enums, henums, graph, hgraph, (), ?_, inputs, hinputs, ?_⟩
    · rw [hrun]
    · rw [hrun]
      rfl

/-- The fragments of a model that is found under its name are those in its registry. -/
theorem renderFragments_of_find? {g : ModelGraph} {model : Model}
    (hm : g.find? model.name = some model) :
    renderFragments g model.name =
      model.fragments.entries.map fun fragment =>
        renderFragment g model.name fragment.1 fragment.2 := by
  rw [renderFragments, fragmentsOf, hm]

/-! ## Which models come out -/

section Names

variable {view : SchemaView} {buildSet : List String} {fragments : FragmentOverrides}
  {hooks : HookOverrides} {declarations : List ModelDeclaration} {generation : Generation}

/-- The run attaches to the models what is sound, and changes nothing else about them. -/
theorem keepsBuild_of_prepare {start : ModelGraph} {state after : Session.State}
    (h : start.KeepsBuild state.graph)
    (hrun : (prepare view fragments hooks).execute state = (.ok (), after)) :
    start.KeepsBuild after.graph := by
  obtain ⟨_, classified, hclassify, hrest⟩ := Session.execute_bind_eq_ok_iff.1 hrun
  obtain ⟨_, merged, hmerge, hhooks⟩ := Session.execute_bind_eq_ok_iff.1 hrest
  have hclassified := h.change (.classify view)
  rw [Change.session, hclassify] at hclassified
  have hmerged := hclassified.change (.mergeFragments fragments)
  rw [Change.session, hmerge] at hmerged
  have hafter := hmerged.change (.mergeHooks hooks)
  rwa [Change.session, hhooks] at hafter

/-- The names of the generated models, in order. -/
def Generation.modelNames (generation : Generation) : List String :=
  generation.collections.map fun collection => collection.model.name

/-- The declared names in the build set, one for each declaration; an empty build set stands for all
models. -/
def selectedNames (buildSet : List String) (declarations : List ModelDeclaration) : List String :=
  (declarations.filter (ModelGraph.isSelected buildSet)).map ModelDeclaration.name

theorem modelNames_ofState (state : Session.State) (enums : List EnumDeclaration)
    (inputs : List InputDeclaration) :
    (Generation.ofState state enums inputs).modelNames = state.graph.models.map Model.name :=
  List.map_map

/-- The generated models are those of the graph that was built. -/
theorem map_name_eq_of_prepare {start : ModelGraph} {enums : List String} {state : Session.State}
    (hbuilt : ModelGraph.build view buildSet declarations enums = .ok start)
    (hrun : (prepare view fragments hooks).execute ⟨start, []⟩ = (.ok (), state)) :
    state.graph.models.map Model.name = start.models.map Model.name :=
  ModelGraph.map_name_eq_of_bare_eq
    (keepsBuild_of_prepare (ModelGraph.IsFresh.built hbuilt).keepsBuild hrun).bare

/-- One model comes out for each declaration in the build set. -/
theorem modelNames_perm_of_generate (hmodels : view.models = .ok declarations)
    (h : generate view buildSet fragments hooks = .ok generation) :
    generation.modelNames.Perm (selectedNames buildSet declarations) := by
  obtain ⟨_, enums, start, state, inputs, hm, -, hbuilt, hrun, -, rfl⟩ := generate_eq_ok_iff.1 h
  obtain rfl : declarations = _ := Except.ok.inj (hmodels.symm.trans hm)
  rw [modelNames_ofState, map_name_eq_of_prepare hbuilt hrun]
  exact ModelGraph.map_name_perm_selected_of_build hbuilt

/-- The models come out in the order of their names. -/
theorem pairwise_modelNames_of_generate
    (h : generate view buildSet fragments hooks = .ok generation) :
    generation.modelNames.Pairwise (· ≤ ·) := by
  obtain ⟨_, enums, start, state, inputs, -, -, hbuilt, hrun, -, rfl⟩ := generate_eq_ok_iff.1 h
  have hkeeps := keepsBuild_of_prepare (ModelGraph.IsFresh.built hbuilt).keepsBuild hrun
  rw [modelNames_ofState, List.pairwise_map]
  exact hkeeps.ordered

end Names

end SchemaAccess
