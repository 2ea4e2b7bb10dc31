import SchemaAccess.Proofs.Graph.Attachments
import SchemaAccess.Proofs.Graph.Building

/-!
# Whatever is attached, in any order

A graph is built once and then changed: fragments are added, operations are classified, overrides
are merged.  Any of these may fail and leave what it did before it failed.  The graph stays sound
all the same, over any sequence of such changes.

* `ModelGraph.IsFresh` — a graph as it is built, from a schema or from finished models.
* `Change`, `Change.session`, `runChanges` — the changes, and a sequence of them that goes on
  behind a failure.
* `KeepsBuild.change` — one change keeps a graph sound.
* `keepsBuild_runChanges` — a whole sequence does.
-/

namespace SchemaAccess

/-! ## Fresh graphs -/

/-- A graph as it is built. -/
inductive ModelGraph.IsFresh : ModelGraph → Prop
  /-- From the declarations of a schema, whatever they are. -/
  | built {view : SchemaView} {buildSet : List String} {declarations : List ModelDeclaration}
      {enums : List String} {g : ModelGraph}
      (built : ModelGraph.build view buildSet declarations enums = .ok g) : IsFresh g
  /-- From models, each with its own fields and enums; several may have one name. -/
  | ofModels (models : List (String × Table String × List String)) :
      IsFresh (.ofModels (models.map fun m => Model.ofFields m.1 m.2.1 m.2.2))

namespace ModelGraph

theorem contains_of_mem_fieldsWhere {p : String → Bool} {fields : Table String} {name : String}
    (h : name ∈ Model.fieldsWhere p fields) : fields.contains name = true := by
  obtain ⟨field, hf, rfl⟩ := List.mem_map.1 h
  exact (Table.contains_iff _ _).2 (List.mem_map_of_mem (List.mem_filter.1 hf).1)

/-- Names of fields make up a selection that every graph knows. -/
theorem knows_map_field (g : ModelGraph) {model : Model} :
    ∀ {names : List String}, (∀ name ∈ names, model.fields.contains name = true) →
      g.Knows model (names.map Selection.field)
  | [], _ => by rw [List.map_nil, Knows]; trivial
  | name :: names, h => by
      rw [List.map_cons, Knows, KnowsEntry]
      exact ⟨h name List.mem_cons_self,
        knows_map_field g fun other ho => h other (List.mem_cons_of_mem _ ho)⟩

/-- A model with nothing attached but its default fragment is sound, whatever its connections. -/
theorem isSound_ofFields (g : ModelGraph) (name : String) (fields : Table String)
    (enums : List String) (connections : Table String) :
    ({ Model.ofFields name fields enums with connections } : Model).IsSound g where
  hasDefault := List.mem_singleton.2 rfl
  fragments fragment hf := by
    obtain rfl := List.mem_singleton.1 hf
    exact knows_map_field g fun name hn => contains_of_mem_fieldsWhere hn
  hooks hook hh := absurd hh List.not_mem_nil
  accessors := .nil

theorem BuiltFrom.isSound (g : ModelGraph) {view : SchemaView} {enums : List String}
    {declaration : ModelDeclaration} {model : Model}
    (h : BuiltFrom view enums declaration model) : model.IsSound g := by
  obtain ⟨scanned, -, rfl⟩ := h
  obtain ⟨connections, hc⟩ := exists_connections_modelOf declaration enums scanned
  rw [hc]
  exact isSound_ofFields g _ _ _ _

/-- A fresh graph is sound. -/
theorem IsFresh.keepsBuild {g : ModelGraph} (h : IsFresh g) : KeepsBuild g g := by
  cases h with
  | built h =>
    refine ⟨rfl, rfl, ?_, fun model hm => ?_⟩
    · obtain ⟨-, models, -, rfl⟩ := build_eq_ok_iff.1 h
      exact pairwise_inNameOrder models
    · obtain ⟨declaration, hbuilt⟩ := exists_builtFrom_of_build h hm
      exact hbuilt.isSound g
  | ofModels models =>
    refine ⟨rfl, rfl, pairwise_inNameOrder _, fun model hm => ?_⟩
    obtain ⟨m, -, rfl⟩ := List.mem_map.1 (List.mem_mergeSort.1 hm)
    exact isSound_ofFields _ _ _ _ _

end ModelGraph

/-! ## Changes -/

/-- Something that is attached to a graph. -/
inductive Change where
  | addFragment (model key : String) (selection : List Selection)
  /-- The operations of a schema, which may refuse to tell them. -/
  | classify (view : SchemaView)
  | mergeFragments (fragments : FragmentOverrides)
  | mergeHooks (hooks : HookOverrides)

/-- The session of a change. -/
def Change.session : Change → Session Unit
  | addFragment model key selection => do
    let graph ← (← get).graph.addFragment model key selection
    Session.setGraph graph
  | classify view => Session.classify view
  | mergeFragments fragments => Session.mergeFragments fragments
  | mergeHooks hooks => Session.mergeHooks hooks

/-- The state behind changes made one after the other.  A change that fails leaves what it did
before it failed, and the next one is made all the same. -/
def runChanges (changes : List Change) (state : Session.State) : Session.State :=
  changes.foldl (fun state change => (change.session.execute state).2) state

/-! ## One change

Every change goes through `KeepsBuild.update` in the end, for all it does to a graph is to attach
something to one model after the other. -/

namespace ModelGraph.KeepsBuild

variable {start : ModelGraph}

theorem addFragment {g h : ModelGraph} {model key : String} {selection : List Selection}
    (hg : KeepsBuild start g) (ha : g.addFragment model key selection = .ok h) :
    KeepsBuild start h := by
  obtain ⟨owner, hfind, hknows, rfl⟩ := addFragment_eq_ok_iff.1 ha
  refine hg.update fun other hother => ⟨rfl, fun hs => hs.setFragment ?_ key⟩
  obtain rfl : owner = other := Option.some.inj (hfind.symm.trans hother)
  exact hknows

/-- Operations are attached in pairs or alone, so the accessors stay paired. -/
theorem attachAll (owners : ModelGraph) (root : OperationRoot) :
    ∀ (operations : List OperationDeclaration) {state : Session.State},
      KeepsBuild start state.graph →
      KeepsBuild start (Session.attachAll owners root operations state).graph
  | [], _, hg => hg
  | operation :: operations, state, hg => by
      refine attachAll owners root operations ?_
      rw [Session.attach]
      split
      · exact hg
      · exact hg.update fun owner _ =>
          ⟨rfl, fun hs => hs.addAccessors (Session.paired_accessorsOf _ _ _)⟩

/-- Classifying keeps a graph sound, also if the mutations cannot be had and the queries stay
attached. -/
theorem classify (view : SchemaView) {state : Session.State} (hg : KeepsBuild start state.graph) :
    KeepsBuild start ((Session.classify view).execute state).2.graph := by
  rw [Session.execute_classify]
  split
  · exact hg
  · split
    · exact attachAll _ _ _ hg
    · exact attachAll _ _ _ (attachAll _ _ _ hg)

theorem addHook {g : ModelGraph} {model hook reference : String} {owner changed : Model}
    (hg : KeepsBuild start g) (hfind : g.find? model = some owner)
    (ha : owner.addHook hook reference = .ok changed) :
    KeepsBuild start (g.update model fun _ => changed) := by
  refine hg.update fun other hother => ?_
  obtain rfl : owner = other := Option.some.inj (hfind.symm.trans hother)
  exact ⟨Model.bare_addHook ha, fun hs => hs.addHook ha⟩

/-- One change keeps a graph sound, also one that fails.  One case for each kind of change. -/
theorem change (c : Change) {state : Session.State} (hg : KeepsBuild start state.graph) :
    KeepsBuild start (c.session.execute state).2.graph := by
  cases c with
  | addFragment model key selection =>
    simp only [Change.session, Session.execute_bind, Session.execute_get, Session.execute_lift]
    cases ha : state.graph.addFragment model key selection with
    | error e => exact hg
    | ok graph => exact hg.addFragment ha
  | classify view => exact hg.classify view
  | mergeFragments fragments => exact Session.keeps_mergeFragments addFragment fragments hg
  | mergeHooks hooks => exact Session.keeps_mergeHooks addHook hooks hg

end ModelGraph.KeepsBuild

/-! ## Sequences of changes

A failing change leaves a state like any other, and the next one begins there. -/

/-- **A sequence of changes keeps a graph sound**, by induction on the changes with `change` for
each. -/
theorem ModelGraph.KeepsBuild.run {start : ModelGraph} (changes : List Change) :
    ∀ {state : Session.State}, start.KeepsBuild state.graph →
      start.KeepsBuild (runChanges changes state).graph := by
  induction changes with
  | nil => exact fun hg => hg
  | cons change changes ih => exact fun hg => ih (hg.change change)

/-- **Whatever is attached to a fresh graph in whatever order, and whichever of the changes
fail**: the models stay those that were built, in the order of their names, and every
attachment is sound. -/
theorem keepsBuild_runChanges {start : ModelGraph} (hs : start.IsFresh) (changes : List Change)
    (warnings : List Warning) :
    start.KeepsBuild (runChanges changes ⟨start, warnings⟩).graph :=
  hs.keepsBuild.run changes

/-- Two models that lead to each other. -/
def blogGraph : ModelGraph :=
  .ofModels <| [("Post", Table.ofList [("id", "ID!"), ("blog", "Blog")], []),
    ("Blog", Table.ofList [("id", "ID!"), ("posts", "[Post]")], [])].map
      fun m => Model.ofFields m.1 m.2.1 m.2.2

/-- A fragment that is refused, one that is not, operations that cannot be had, and a blank hook. -/
def blogChanges : List Change :=
  [.addFragment "Blog" "Broken" [.nested [("posts", [.field "titel"])]],
    .addFragment "Blog" "Deep" [.nested [("posts", [.field "id", .nested [("blog", [])]])]],
    .classify ⟨.ok [], fun _ => .ok [], fun _ => .error (.missingModel "Blog"), .ok [], .ok []⟩,
    .mergeHooks (Table.ofList [("Post", Table.ofList [("before", "log"), ("after", " ")])])]

theorem keepsBuild_runChanges_blog :
    blogGraph.IsFresh ∧ blogGraph.KeepsBuild (runChanges blogChanges ⟨blogGraph, []⟩).graph :=
  ⟨.ofModels _, keepsBuild_runChanges (.ofModels _) blogChanges []⟩

end SchemaAccess
