import SchemaAccess.Fragment.Rendered
import SchemaAccess.Model.Session

/-!
# Generations

A generation is everything that the renderer needs: a collection for each model, the enums, the
documented inputs, the parameters of every attached operation, and the warnings.

* `Collection`, `Generation` — the result.
* `enumTable`, `inputTable`, `queryInputs` — the three registries.
* `prepare` — the part of the run that changes the graph.
* `generate` — the whole run over one view of the schemas.
-/

namespace SchemaAccess

/-! ## The result -/

/-- What is generated for one model. -/
structure Collection where
  model : Model
  /-- The fragments of the model, rendered. -/
  fragments : List RenderedFragment

/-- Everything that one run produces. -/
structure Generation where
  /-- The models in the order of their names. -/
  collections : List Collection
  /-- The values of every enum. -/
  enums : Table (List String)
  /-- The fields of every input in documentation notation. -/
  inputs : Table (Table String)
  /-- The parameters of every attached operation. -/
  queryInputs : Table (Table String)
  warnings : List Warning

/-- The name of the generated module. -/
def Collection.name (c : Collection) : String := c.model.collectionName

/-- The collection of the model of a name. -/
def Generation.find? (g : Generation) (model : String) : Option Collection :=
  g.collections.find? fun collection => collection.model.name = model

/-! ## Registries -/

/-- Enums by name; of two with one name the last counts, at the place of the first. -/
def enumTable (enums : List EnumDeclaration) : Table (List String) :=
  Table.ofList (enums.map fun enum => (enum.name, enum.values))

/-- Inputs by name with their types as written. -/
def inputTable (inputs : List InputDeclaration) : Table (Table String) :=
  Table.ofList (inputs.map fun input => (input.name, input.fields))

/-- Inputs with their types in documentation notation. -/
def documentation (inputs : Table (Table String)) : Table (Table String) :=
  inputs.map (·.map TypeText.documented)

/-- The parameters of the operations of all accessors; of two operations with one name the first
counts. -/
def queryInputs (models : List Model) : Table (Table String) :=
  (models.flatMap Model.accessors).foldl
    (fun table accessor => table.insertNew accessor.operation accessor.params) Table.empty

/-! ## The run -/

/-- Attaches operations and overrides to the graph. -/
def prepare (view : SchemaView) (fragments : FragmentOverrides) (hooks : HookOverrides) :
    Session Unit := do
  Session.classify view
  Session.mergeFragments fragments
  Session.mergeHooks hooks

/-- What is generated for a model of the graph. -/
def collectionOf (g : ModelGraph) (model : Model) : Collection :=
  ⟨model, renderFragments g model.name⟩

/-- Runs the generator over one view of the schemas. -/
def generate (view : SchemaView) (buildSet : List String) (fragments : FragmentOverrides)
    (hooks : HookOverrides) : Except Error Generation := do
  let declarations ← view.models
  let enums := enumTable (← view.enums)
  let graph ← ModelGraph.build view buildSet declarations enums.keys
  let (outcome, state) := (prepare view fragments hooks).execute ⟨graph, []⟩
  outcome
  let inputs ← view.inputs
  let graph := state.graph
  return {
    collections := graph.models.map (collectionOf graph)
    enums := enums
    inputs := documentation (inputTable inputs)
    queryInputs := queryInputs graph.models
    warnings := state.warnings ++
      graph.models.flatMap fun model => fragmentWarnings graph model.name }

end SchemaAccess
