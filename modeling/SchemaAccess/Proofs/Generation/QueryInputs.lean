import SchemaAccess.Proofs.Generation.Run
import SchemaAccess.Proofs.Session.FunctionNames

/-!
# The parameters of every operation

A generation lists the parameters of the operations of all its accessors.  Where several accessors
share the name of an operation, the first one counts.  Within one block of the schema that makes no
difference, since a listing and an iterating accessor have the same operation; between a query and a
mutation of one name it does.

* `Table.get?_insertNew`, `get?_queryInputs` — what the first accessor of a name leaves.
* `Accessor.root`, `Accessor.Calls` — the block of an operation, and accessors that call one of it.
* `callsOnly_of_prepare` — all accessors of a generation do.
* `Generation.TellsParams`, `tellsParams_of_generate` — whose parameters are listed.
-/

namespace SchemaAccess

/-! ## The first entry of a key -/

/-- The first entry of a key stays when another one comes. -/
theorem Table.get?_insertNew {α : Type} (t : Table α) (key other : String) (a : α) :
    (t.insertNew key a).get? other =
      (t.get? other).or (if key = other then some a else none) := by
  rw [insertNew]
  split
  · next hkey =>
    by_cases hother : key = other
    · subst hother
      cases hget : t.get? key with
      | none => exact absurd ((contains_iff t key).1 hkey) ((get?_eq_none_iff t key).1 hget)
      | some b => rfl
    · rw [if_neg hother, Option.or_none]
  · next hkey =>
    rw [get?_insert]
    by_cases hother : key = other
    · subst hother
      have hget : t.get? key = none :=
        (get?_eq_none_iff t key).2 fun h => hkey ((contains_iff t key).2 h)
      rw [if_pos rfl, if_pos rfl, hget, Option.none_or]
    · rw [if_neg hother, if_neg hother, Option.or_none]

/-- What accessors add to a table are the parameters of the first one of each name. -/
theorem get?_foldl_insertNew (name : String) :
    ∀ (accessors : List Accessor) (table : Table (Table String)),
      (accessors.foldl (fun table a => table.insertNew a.operation a.params) table).get? name =
        (table.get? name).or
          ((accessors.find? fun a => a.operation = name).map Accessor.params)
  | [], table => by rw [List.foldl_nil, List.find?_nil, Option.map_none, Option.or_none]
  | a :: accessors, table => by
      rw [List.foldl_cons, get?_foldl_insertNew name accessors, Table.get?_insertNew,
        Option.or_assoc, List.find?_cons]
      by_cases hname : a.operation = name <;> simp [hname]

/-- The listed parameters of a name are those of the first accessor that calls it. -/
theorem get?_queryInputs (models : List Model) (name : String) :
    (queryInputs models).get? name =
      ((models.flatMap Model.accessors).find? fun a => a.operation = name).map
        Accessor.params := by
  rw [queryInputs, get?_foldl_insertNew, Table.get?_empty, Option.none_or]

/-! ## Where accessors come from

An accessor does not say which block its operation was in, but its kind does: queries never become
mutations.  Every accessor of a generation can therefore be traced back to a declaration of the
schema. -/

namespace Accessor

/-- The block of the schema that the operation of an accessor stands in. -/
def root (a : Accessor) : OperationRoot := if a.kind = .mutate then .mutation else .query

/-- The accessor calls an operation of its block with the parameters that the block gives it. -/
def Calls (view : SchemaView) (a : Accessor) : Prop :=
  ∃ operations, view.operations a.root = .ok operations ∧
    ∃ operation ∈ operations, a.operation = operation.name ∧ a.params = operation.params

/-- Accessors of one operation have the same parameters, if a block names no operation twice. -/
theorem Calls.params_eq {view : SchemaView} {a b : Accessor} (ha : a.Calls view)
    (hb : b.Calls view)
    (hnodup : ∀ root operations, view.operations root = .ok operations →
      (operations.map OperationDeclaration.name).Nodup)
    (hroot : a.root = b.root) (hname : a.operation = b.operation) : a.params = b.params := by
  obtain ⟨operations, hops, first, hfirst, hfirstName, hfirstParams⟩ := ha
  obtain ⟨others, hothers, second, hsecond, hsecondName, hsecondParams⟩ := hb
  rw [hroot, hothers] at hops
  cases hops
  have hsame : first = second :=
    List.inj_on_of_nodup_map (hnodup _ _ hothers) hfirst hsecond
      (hfirstName.symm.trans (hname.trans hsecondName))
  rw [hfirstParams, hsecondParams, hsame]

end Accessor

namespace Session

variable {view : SchemaView} {before after : State}

/-- An accessor calls the operation that it is the image of, with its parameters. -/
theorem calls_imageOn {model : String} {root : OperationRoot} {operation : OperationDeclaration}
    {operations : List OperationDeclaration} (hops : view.operations root = .ok operations)
    (hmem : operation ∈ operations) : ∀ a ∈ imageOn model root operation, a.Calls view := by
  intro a ha
  have hcalls : a.root = root ∧ a.operation = operation.name ∧ a.params = operation.params := by
    cases root with
    | mutation =>
      obtain rfl := List.mem_singleton.1 ha
      exact ⟨rfl, rfl, rfl⟩
    | query =>
      rw [imageOn] at ha
      split at ha
      · rcases List.mem_pair.1 ha with rfl | rfl <;> exact ⟨rfl, rfl, rfl⟩
      · obtain rfl := List.mem_singleton.1 ha
        exact ⟨rfl, rfl, rfl⟩
  obtain ⟨rfl, hname, hparams⟩ := hcalls
  exact ⟨operations, hops, operation, hmem, hname, hparams⟩

/-- All accessors of a graph call operations of the schema. -/
def CallsOnly (view : SchemaView) (g : ModelGraph) : Prop :=
  ∀ model ∈ g.models, ∀ a ∈ model.accessors, a.Calls view

/-- What is attached to a graph by the operations of a schema calls these. -/
theorem callsOnly_of_classify (hbefore : CallsOnly view before.graph)
    (h : (classify view).execute before = (.ok (), after)) : CallsOnly view after.graph := by
  obtain ⟨queries, mutations, hqueries, hmutations, hclassified⟩ := execute_classify_eq_ok_iff.1 h
  intro model hmodel a ha
  obtain ⟨place, hplace⟩ := List.mem_iff_getElem?.1 hmodel
  rw [hclassified.models] at hplace
  obtain ⟨owner, howner, rfl⟩ := Option.map_eq_some_iff.1 hplace
  rcases List.mem_append.1 ha with ha | ha
  · exact hbefore owner (List.mem_of_getElem? howner) a ha
  · rcases List.mem_append.1 ha with ha | ha
    · obtain ⟨operation, hop, ha⟩ := List.mem_flatMap.1 ha
      exact calls_imageOn hqueries (List.mem_filter.1 hop).1 a ha
    · obtain ⟨operation, hop, ha⟩ := List.mem_flatMap.1 ha
      exact calls_imageOn hmutations (List.mem_filter.1 hop).1 a ha

/-- A change of a model that leaves its accessors alone attaches no others. -/
theorem CallsOnly.update {g : ModelGraph} (hg : CallsOnly view g) {name : String}
    {f : Model → Model}
    (hf : ∀ owner, g.find? name = some owner → (f owner).accessors = owner.accessors) :
    CallsOnly view (g.update name f) := by
  intro model hmodel a ha
  rcases ModelGraph.mem_updateFirst hmodel with hmodel | ⟨owner, howner, rfl⟩
  · exact hg model hmodel a ha
  · rw [hf owner howner] at ha
    exact hg owner (List.mem_of_find?_eq_some howner) a ha

theorem CallsOnly.addFragment {g h : ModelGraph} {model key : String}
    {selection : List Selection} (hg : CallsOnly view g)
    (hadd : g.addFragment model key selection = .ok h) : CallsOnly view h := by
  obtain ⟨-, -, -, rfl⟩ := ModelGraph.addFragment_eq_ok_iff.1 hadd
  exact hg.update fun _ _ => rfl

theorem CallsOnly.addHook {g : ModelGraph} {model hook reference : String} {owner changed : Model}
    (hg : CallsOnly view g) (hfind : g.find? model = some owner)
    (hadd : owner.addHook hook reference = .ok changed) :
    CallsOnly view (g.update model fun _ => changed) := by
  obtain ⟨-, -, rfl⟩ := Model.addHook_eq_ok_iff.1 hadd
  exact hg.update fun other hother => by rw [Option.some.inj (hfind.symm.trans hother)]

/-- Whatever is attached before a generation is read off its graph, its accessors call operations of
the schema. -/
theorem callsOnly_of_prepare {fragments : FragmentOverrides} {hooks : HookOverrides}
    (hbefore : CallsOnly view before.graph)
    (hrun : (prepare view fragments hooks).execute before = (.ok (), after)) :
    CallsOnly view after.graph := by
  obtain ⟨_, classified, hclassify, hrest⟩ := execute_bind_eq_ok_iff.1 hrun
  obtain ⟨_, merged, hmerge, hhooks⟩ := execute_bind_eq_ok_iff.1 hrest
  have hmerged := keeps_mergeFragments CallsOnly.addFragment fragments
    (callsOnly_of_classify hbefore hclassify)
  rw [hmerge] at hmerged
  have hafter := keeps_mergeHooks CallsOnly.addHook hooks hmerged
  rwa [hhooks] at hafter

/-- A built graph has no accessors. -/
theorem callsOnly_of_build {buildSet : List String} {declarations : List ModelDeclaration}
    {enums : List String} {g : ModelGraph}
    (h : ModelGraph.build view buildSet declarations enums = .ok g) : CallsOnly view g := by
  intro model hmodel a ha
  obtain ⟨declaration, scanned, -, rfl⟩ := ModelGraph.exists_builtFrom_of_build h hmodel
  obtain ⟨connections, hc⟩ := ModelGraph.exists_connections_modelOf declaration enums scanned
  rw [hc] at ha
  exact absurd ha List.not_mem_nil

end Session

/-! ## Whose parameters are listed

Accessors of one name share one entry of the table of parameters, which is that of the first of
them. -/

namespace Generation

/-- The accessors of a generation, model by model. -/
def accessors (generation : Generation) : List Accessor :=
  generation.collections.flatMap fun collection => collection.model.accessors

/-- What a generation tells about the parameters of the operations of its accessors. -/
structure TellsParams (generation : Generation) : Prop where
  /-- It tells parameters for these operations and for no others. -/
  mem_keys_iff : ∀ name, name ∈ generation.queryInputs.keys ↔
    ∃ a ∈ generation.accessors, a.operation = name
  /-- The first accessor of a name counts. -/
  first : ∀ before a after, generation.accessors = before ++ a :: after →
    (∀ other ∈ before, other.operation ≠ a.operation) →
    generation.queryInputs.get? a.operation = some a.params
  /-- An accessor behind others of its name still has its own parameters told, if the others have
  their operations in the same block. -/
  own : ∀ before a after, generation.accessors = before ++ a :: after →
    (∀ other ∈ before, other.operation = a.operation → other.root = a.root) →
    generation.queryInputs.get? a.operation = some a.params

variable {view : SchemaView} {buildSet : List String} {fragments : FragmentOverrides}
  {hooks : HookOverrides} {generation : Generation}

theorem accessors_ofState (state : Session.State) (enums : List EnumDeclaration)
    (inputs : List InputDeclaration) :
    (ofState state enums inputs).accessors = state.graph.models.flatMap Model.accessors :=
  List.flatMap_map ..

/-- If neither block of the schema names an operation twice, a generation tells the parameters of
the first accessor of each name, and so those of every accessor that no accessor of the other block
with its name stands before. -/
theorem tellsParams_of_generate
    (hnodup : ∀ root operations, view.operations root = .ok operations →
      (operations.map OperationDeclaration.name).Nodup)
    (h : generate view buildSet fragments hooks = .ok generation) : generation.TellsParams := by
  obtain ⟨_, enums, start, state, inputs, -, -, hbuilt, hrun, -, rfl⟩ := generate_eq_ok_iff.1 h
  have hcalls : ∀ a ∈ (ofState state enums inputs).accessors, a.Calls view := by
    rw [accessors_ofState]
    intro a ha
    obtain ⟨model, hmodel, ha⟩ := List.mem_flatMap.1 ha
    exact Session.callsOnly_of_prepare (Session.callsOnly_of_build hbuilt) hrun model hmodel a ha
  have hget : ∀ name, (ofState state enums inputs).queryInputs.get? name =
      ((ofState state enums inputs).accessors.find? fun a => a.operation = name).map
        Accessor.params := by
    rw [accessors_ofState]
    exact get?_queryInputs state.graph.models
  have hown : ∀ before a after, (ofState state enums inputs).accessors = before ++ a :: after →
      (∀ other ∈ before, other.operation = a.operation → other.root = a.root) →
      (ofState state enums inputs).queryInputs.get? a.operation = some a.params := by
    intro before a after hsplit hroot
    rw [hget, hsplit, List.find?_append]
    rw [hsplit] at hcalls
    cases hfind : before.find? fun other => other.operation = a.operation with
    | none => simp
    | some other =>
      have hother : other ∈ before := List.mem_of_find?_eq_some hfind
      have hname : other.operation = a.operation := by simpa using List.find?_some hfind
      exact congrArg some ((hcalls other (List.mem_append_left _ hother)).params_eq
        (hcalls a (List.mem_append_right _ List.mem_cons_self)) hnodup (hroot other hother hname)
        hname)
  refine ⟨fun name => ?_, fun before a after hsplit hfirst => ?_, hown⟩
  · rw [← not_iff_not, ← Table.get?_eq_none_iff, hget, Option.map_eq_none_iff, List.find?_eq_none]
    simp
  · exact hown before a after hsplit fun other hother hname => absurd hname (hfirst other hother)

end Generation

/-! ## Posts -/

/-- What is generated from a schema of posts without overrides. -/
theorem generate_postSchema (queries mutations : List OperationDeclaration) :
    generate (postSchema queries mutations) [] Table.empty Table.empty =
      .ok (.ofState (Session.stateBehind queries ⟨postGraph, []⟩ .mutation mutations) [] []) :=
  generate_eq_ok_iff.2 ⟨[⟨"Post", []⟩], [], postGraph, _, [], rfl, rfl,
    build_postGraph queries mutations, rfl, rfl, rfl⟩

theorem tellsParams_postSchema :
    (∀ root operations,
      (postSchema [listPosts, getPost] [createPost]).operations root = .ok operations →
        (operations.map OperationDeclaration.name).Nodup) ∧
      ∃ generation, generate (postSchema [listPosts, getPost] [createPost]) [] Table.empty
        Table.empty = .ok generation ∧ generation.TellsParams := by
  have hnodup : ∀ root operations,
      (postSchema [listPosts, getPost] [createPost]).operations root = .ok operations →
        (operations.map OperationDeclaration.name).Nodup := by
    rintro (_ | _) operations ⟨⟩
    · decide
    · decide
  have hgenerate := generate_postSchema [listPosts, getPost] [createPost]
  exact ⟨hnodup, _, hgenerate, Generation.tellsParams_of_generate hnodup hgenerate⟩

/-- One post. -/
def postById : OperationDeclaration := ⟨"post", Table.ofList [("id", "ID!")], "Post"⟩

/-- A new post, by the same name. -/
def postByTitle : OperationDeclaration := ⟨"post", Table.ofList [("title", "String!")], "Post"⟩

/-- The parameters of the mutation are not told, since the query has its name. -/
theorem queryInputs_postByTitle_ne :
    (∀ root operations, (postSchema [postById] [postByTitle]).operations root = .ok operations →
        (operations.map OperationDeclaration.name).Nodup) ∧
      ∃ generation, generate (postSchema [postById] [postByTitle]) [] Table.empty Table.empty =
          .ok generation ∧
        ∃ a ∈ generation.accessors, generation.queryInputs.get? a.operation ≠ some a.params := by
  refine ⟨?_, _, generate_postSchema [postById] [postByTitle],
    ⟨.mutate, postByTitle.name, postByTitle.params⟩, .tail _ (.head _), fun h => ?_⟩
  · rintro (_ | _) operations ⟨⟩
    · decide
    · decide
  · exact absurd (congrArg (Option.map Table.keys) h) (by decide)

end SchemaAccess
