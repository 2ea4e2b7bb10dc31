import SchemaAccess.Proofs.Generation.Discovery
import SchemaAccess.Proofs.Table.Entries

/-!
# Generating from declarations in another order

A generation puts its models in the order of their names and looks everything else up by name.  So
if every declaration has a name of its own, it does not matter in which order the models, the inputs
and the enums are declared: the same comes out, but for the order of the registries of inputs and
enums.

* `SchemaView.Reorders` — two views answer alike, up to the order of what has a name of its own.
* `build_reorders` — the same graph is built, but for the order of the declared names.
* `Generation.Reordered` — what may differ between two generations.
* `generate_reorders`, `sameOutcome_generate` — nothing else differs, and one run goes through
  exactly if the other does.
-/

namespace SchemaAccess

/-! ## Views -/

/-- Both answers are lists of the same things in some order, each with a name of its own. -/
def SameUpToOrder {α : Type} (name : α → String) (answer other : Except Error (List α)) : Prop :=
  ∃ list permuted, answer = .ok list ∧ other = .ok permuted ∧ list.Perm permuted ∧
    (list.map name).Nodup

theorem SameUpToOrder.symm {α : Type} {name : α → String} {answer other : Except Error (List α)}
    (h : SameUpToOrder name answer other) : SameUpToOrder name other answer := by
  obtain ⟨list, permuted, hanswer, hother, hperm, hnodup⟩ := h
  exact ⟨permuted, list, hother, hanswer, hperm.symm, (hperm.map name).nodup_iff.1 hnodup⟩

/-- Both views tell the same fields and operations, and the same models, inputs and enums in some
order, each with a name of its own. -/
structure SchemaView.Reorders (view other : SchemaView) : Prop where
  models : SameUpToOrder ModelDeclaration.name view.models other.models
  fields : view.fields = other.fields
  operations : view.operations = other.operations
  inputs : SameUpToOrder InputDeclaration.name view.inputs other.inputs
  enums : SameUpToOrder EnumDeclaration.name view.enums other.enums

theorem SchemaView.Reorders.symm {view other : SchemaView} (h : view.Reorders other) :
    other.Reorders view where
  models := h.models.symm
  fields := h.fields.symm
  operations := h.operations.symm
  inputs := h.inputs.symm
  enums := h.enums.symm

/-! ## Tables -/

section Tables

variable {α : Type}

/-- The registry of enums. -/
theorem entries_enumTable_perm {enums others : List EnumDeclaration} (h : enums.Perm others)
    (hnodup : (enums.map EnumDeclaration.name).Nodup) :
    (enumTable enums).entries.Perm (enumTable others).entries := by
  refine Table.entries_ofList_perm (h.map _) ?_
  rwa [Entries.keys, List.map_map]

/-- The registry of inputs. -/
theorem entries_documentation_perm {inputs others : List InputDeclaration} (h : inputs.Perm others)
    (hnodup : (inputs.map InputDeclaration.name).Nodup) :
    (documentation (inputTable inputs)).entries.Perm
      (documentation (inputTable others)).entries := by
  refine (Table.entries_ofList_perm (h.map _) ?_).map _
  rwa [Entries.keys, List.map_map]

end Tables

/-! ## Graphs -/

namespace ModelGraph

section Building

variable {view other : SchemaView} {enums others : List String}

/-- Of the enums only the names matter, in any order. -/
theorem modelOf_congr (h : ∀ name, name ∈ enums ↔ name ∈ others) (declaration : ModelDeclaration)
    (scanned : List FieldDeclaration) :
    modelOf declaration enums scanned = modelOf declaration others scanned := by
  have hprimitive : Model.isPrimitive enums = Model.isPrimitive others := by
    funext type
    have hcontains : enums.contains (TypeText.baseName type) =
        others.contains (TypeText.baseName type) := by
      rw [Bool.eq_iff_iff, List.contains_iff_mem, List.contains_iff_mem]
      exact h _
    rw [Model.isPrimitive, Model.isPrimitive, hcontains]
  rw [modelOf, modelOf, Model.ofFields, Model.ofFields, hprimitive]

theorem BuiltFrom.congr {declaration : ModelDeclaration} {model : Model}
    (hfields : view.fields = other.fields) (henums : ∀ name, name ∈ enums ↔ name ∈ others)
    (h : BuiltFrom view enums declaration model) : BuiltFrom other others declaration model := by
  obtain ⟨scanned, hscanned, rfl⟩ := h
  exact ⟨scanned, hfields ▸ hscanned, modelOf_congr henums declaration scanned⟩

/-- From declarations in another order the same graph is built, but for the order of the declared
names. -/
theorem build_reorders {buildSet : List String} {declarations permuted : List ModelDeclaration}
    {g : ModelGraph} (hfields : view.fields = other.fields)
    (henums : ∀ name, name ∈ enums ↔ name ∈ others) (hperm : declarations.Perm permuted)
    (hnodup : (declarations.map ModelDeclaration.name).Nodup)
    (h : build view buildSet declarations enums = .ok g) :
    build other buildSet permuted others =
      .ok (g.withDiscovered (permuted.map ModelDeclaration.name)) := by
  obtain ⟨hdeclared, models, hmodels, rfl⟩ := build_eq_ok_iff.1 h
  -- The other order gives the same models in another order, which putting them in order undoes.
  obtain ⟨reordered, hbuilt, hsame⟩ :=
    List.perm_comp_forall₂ (hperm.symm.filter (isSelected buildSet)) hmodels
  have hdistinct : (models.map Model.name).Nodup := by
    rw [map_name_of_builtFrom hmodels]
    exact hnodup.sublist (List.filter_sublist.map ModelDeclaration.name)
  refine build_eq_ok_iff.2 ⟨fun name hname => ?_, reordered, ?_, ?_⟩
  · exact (hperm.map ModelDeclaration.name).mem_iff.1 (hdeclared name hname)
  · exact hbuilt.imp fun _ _ => BuiltFrom.congr hfields henums
  · have hordered : inNameOrder models = inNameOrder reordered :=
      inNameOrder_eq_of_perm hsame.symm hdistinct
    rw [← hordered]
    rfl

end Building

end ModelGraph

/-! ## Generations -/

/-- Both generations have the same collections, query inputs and warnings, and the same entries in
the registries of enums and inputs in some order. -/
structure Generation.Reordered (generation other : Generation) : Prop where
  collections : generation.collections = other.collections
  queryInputs : generation.queryInputs = other.queryInputs
  warnings : generation.warnings = other.warnings
  enums : generation.enums.entries.Perm other.enums.entries
  inputs : generation.inputs.entries.Perm other.inputs.entries

section Run

variable {view other : SchemaView} {buildSet : List String} {fragments : FragmentOverrides}
  {hooks : HookOverrides}

/-- What is attached depends on the operations alone. -/
theorem prepare_congr (h : view.operations = other.operations) :
    prepare view fragments hooks = prepare other fragments hooks := by
  simp only [prepare, Session.classify, h]

/-- The run leaves the declared names alone. -/
theorem discovered_of_prepare {declarations : List ModelDeclaration} {enums : List String}
    {start : ModelGraph} {state : Session.State}
    (hbuilt : ModelGraph.build view buildSet declarations enums = .ok start)
    (hrun : (prepare view fragments hooks).execute ⟨start, []⟩ = (.ok (), state)) :
    state.graph.discovered = declarations.map ModelDeclaration.name := by
  rw [(keepsBuild_of_prepare (ModelGraph.IsFresh.built hbuilt).keepsBuild hrun).discovered]
  obtain ⟨-, models, -, rfl⟩ := ModelGraph.build_eq_ok_iff.1 hbuilt
  rfl

/-- From declarations in another order the same is generated. -/
theorem generate_reorders (h : view.Reorders other) {generation : Generation}
    (hg : generate view buildSet fragments hooks = .ok generation) :
    ∃ reordered, generate other buildSet fragments hooks = .ok reordered ∧
      generation.Reordered reordered := by
  obtain ⟨declarations, enums, graph, state, inputs, hm, he, hbuilt, hrun, hi, rfl⟩ :=
    generate_eq_ok_iff.1 hg
  obtain ⟨_, models', hmodels, hmodels', hmperm, hmnodup⟩ := h.models
  obtain ⟨_, enums', henums, henums', heperm, henodup⟩ := h.enums
  obtain ⟨_, inputs', hinputs, hinputs', hiperm, hinodup⟩ := h.inputs
  obtain rfl : declarations = _ := Except.ok.inj (hm.symm.trans hmodels)
  obtain rfl : enums = _ := Except.ok.inj (he.symm.trans henums)
  obtain rfl : inputs = _ := Except.ok.inj (hi.symm.trans hinputs)
  have hetable := entries_enumTable_perm heperm henodup
  have hbuilt' := ModelGraph.build_reorders h.fields
    (fun name => (hetable.map Prod.fst).mem_iff) hmperm hmnodup hbuilt
  have hrun' := Session.ignoresDiscovered_prepare view fragments hooks
    (models'.map ModelDeclaration.name) _ _ hrun
  rw [prepare_congr h.operations] at hrun'
  refine ⟨_, generate_eq_ok_iff.2 ⟨models', enums', _, _, inputs', hmodels', henums', hbuilt',
    hrun', hinputs', rfl⟩, ?_⟩
  have hnames : ∀ name, name ∈ models'.map ModelDeclaration.name ↔
      name ∈ state.graph.discovered := by
    intro name
    rw [discovered_of_prepare hbuilt hrun]
    exact (hmperm.map ModelDeclaration.name).mem_iff.symm
  rw [Generation.ofState_withDiscovered hnames]
  exact ⟨rfl, rfl, rfl, hetable, entries_documentation_perm hiperm hinodup⟩

/-- Both runs fail, or both go through and give the same up to the order of registries. -/
structure SameOutcome (run other : Except Error Generation) : Prop where
  succeeds : (∃ generation, run = .ok generation) ↔ ∃ generation, other = .ok generation
  reordered : ∀ {generation reordered : Generation}, run = .ok generation →
    other = .ok reordered → generation.Reordered reordered

/-- In whatever order the declarations come, the run has the same outcome. -/
theorem sameOutcome_generate (h : view.Reorders other) :
    SameOutcome (generate view buildSet fragments hooks)
      (generate other buildSet fragments hooks) where
  succeeds := by
    constructor
    · rintro ⟨generation, hg⟩
      obtain ⟨reordered, hr, -⟩ := generate_reorders h hg
      exact ⟨reordered, hr⟩
    · rintro ⟨generation, hg⟩
      obtain ⟨reordered, hr, -⟩ := generate_reorders h.symm hg
      exact ⟨reordered, hr⟩
  reordered := by
    intro generation reordered hg hr
    obtain ⟨other, ho, hsame⟩ := generate_reorders h hg
    obtain rfl : reordered = other := Except.ok.inj (hr.symm.trans ho)
    exact hsame

end Run

end SchemaAccess
