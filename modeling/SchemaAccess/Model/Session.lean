import SchemaAccess.Model.Graph

/-!
# Changing the graph step by step

Operations and overrides are attached to the graph one by one.  A step may add warnings, and one
that fails ends the rest but takes nothing back.

* `Session.State` — the graph and the warnings so far.
* `Session` — a computation on that state that may fail.
* `Session.classify` — attaches the operations of the schemas to the models that they return.
* `Session.mergeFragments`, `Session.mergeHooks` — attach the overrides of a user.
-/

namespace SchemaAccess

/-- The graph and the warnings so far. -/
structure Session.State where
  graph : ModelGraph
  /-- The warnings, oldest first. -/
  warnings : List Warning

/-- A computation on the graph that adds warnings and may fail. -/
abbrev Session := ExceptT Error (StateM Session.State)

namespace Session

/-- Adds a warning. -/
def warn (warning : Warning) : Session Unit :=
  modify fun state => { state with warnings := state.warnings ++ [warning] }

/-- Replaces the graph. -/
def setGraph (graph : ModelGraph) : Session Unit :=
  modify fun state => { state with graph := graph }

/-- The outcome of a computation and the state behind it. -/
def execute {α : Type} (session : Session α) (state : State) : Except Error α × State :=
  (session.run).run state

/-! ## Operations -/

/-- How an operation returns its model. -/
inductive ReturnShape where
  /-- The model itself. -/
  | single
  /-- A page of the model. -/
  | page
  /-- A list of the model. -/
  | list
  deriving DecidableEq

/-- The return types, without required marks, that belong to a model. -/
def returnTypes (model : String) : List (String × String × ReturnShape) :=
  [(model, model, .single), ("Model" ++ model ++ "Connection", model, .page),
    ("[" ++ model ++ "]", model, .list)]

/-- The model that a return type without required marks belongs to.  Where two models claim a
type, the first has it. -/
def owner? (g : ModelGraph) (returns : String) : Option (String × ReturnShape) :=
  Entries.get? returns (g.models.flatMap fun model => returnTypes model.name)

/-- The accessors that an operation becomes.  A query for pages becomes a listing accessor and an
iterating one, any other query a getting one and a mutation a mutating one. -/
def accessorsOf (root : OperationRoot) (shape : ReturnShape) (operation : OperationDeclaration) :
    List Accessor :=
  match root, shape with
  | .mutation, _ => [⟨.mutate, operation.name, operation.params⟩]
  | .query, .page =>
    [⟨.list, operation.name, operation.params⟩, ⟨.iterate, operation.name, operation.params⟩]
  | .query, _ => [⟨.get, operation.name, operation.params⟩]

/-- Attaches an operation to the model that it returns, or warns that there is none. -/
def attach (owners : ModelGraph) (root : OperationRoot) (state : State)
    (operation : OperationDeclaration) : State :=
  match owner? owners (TypeText.unmarked operation.returns) with
  | none =>
    { state with
      warnings := state.warnings ++ [.unresolvedReturn root operation.name operation.returns] }
  | some (model, shape) =>
    { state with
      graph := state.graph.update model (·.addAccessors (accessorsOf root shape operation)) }

/-- Attaches all operations of one root, in order. -/
def attachAll (owners : ModelGraph) (root : OperationRoot)
    (operations : List OperationDeclaration) (state : State) : State :=
  operations.foldl (attach owners root) state

/-- Attaches the queries, then the mutations. -/
def classify (view : SchemaView) : Session Unit := do
  let owners := (← get).graph
  let queries ← view.operations .query
  modify (attachAll owners .query queries)
  let mutations ← view.operations .mutation
  modify (attachAll owners .mutation mutations)

/-! ## Overrides -/

/-- Adds the fragments of one model in order. -/
def addFragments (model : String) : List (String × List Selection) → Session Unit
  | [] => return
  | (key, selection) :: fragments => do
    let graph ← (← get).graph.addFragment model key selection
    setGraph graph
    addFragments model fragments

/-- Adds the hooks of one model in order. -/
def addHooks (model : String) : List (String × String) → Session Unit
  | [] => return
  | (hook, reference) :: hooks => do
    let graph := (← get).graph
    match graph.find? model with
    | some owner =>
      let owner ← owner.addHook hook reference
      setGraph (graph.update model fun _ => owner)
    | none => return
    addHooks model hooks

/-- Attaches the overrides of a document model by model; those for models that are not built are
passed over with a warning. -/
def merge {α : Type} (kind : OverrideKind) (attach : String → List (String × α) → Session Unit) :
    List (String × Table α) → Session Unit
  | [] => return
  | (model, overrides) :: rest => do
    if (← get).graph.isBuilt model then attach model overrides.entries
    else warn (.unknownOverride kind model)
    merge kind attach rest

/-- Adds the fragments of a document. -/
def mergeFragments (fragments : FragmentOverrides) : Session Unit :=
  merge .fragment addFragments fragments.entries

/-- Adds the hooks of a document. -/
def mergeHooks (hooks : HookOverrides) : Session Unit :=
  merge .hook addHooks hooks.entries

end Session

end SchemaAccess
