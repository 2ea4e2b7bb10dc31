import SchemaAccess.Declaration
import SchemaAccess.Model.Basic

/-!
# The graph of models

The models of one generation in the order of their names, together with the names of all models
that the source schema declares, so that a field leading to a model that is not built is still
known to lead to a model.

* `ModelGraph.ofModels` — the graph of finished models.
* `ModelGraph.build` — the graph of the declared models, or of those in a build set.
* `ModelGraph.unknownFields` — the names in a selection that no model has.
* `ModelGraph.addFragment` — adds a fragment whose names all exist.
-/

namespace SchemaAccess

/-- The models of a generation. -/
structure ModelGraph where
  /-- The models that are built, in the order of their names. -/
  models : List Model
  /-- The names of all declared models. -/
  discovered : List String

namespace ModelGraph

/-- Models in the order of their names; models of one name keep their order. -/
def inNameOrder (models : List Model) : List Model :=
  models.mergeSort fun a b => decide (a.name ≤ b.name)

/-- The graph of finished models. -/
def ofModels (models : List Model) : ModelGraph :=
  ⟨inNameOrder models, models.map Model.name⟩

/-- The built model of a name. -/
def find? (g : ModelGraph) (name : String) : Option Model :=
  g.models.find? fun model => model.name = name

/-- True if a model of the name is built. -/
def isBuilt (g : ModelGraph) (name : String) : Bool := (g.find? name).isSome

/-- True if a model of the name is declared, built or not. -/
def isModel (g : ModelGraph) (name : String) : Bool := g.discovered.contains name

/-- Changes the first model of a list that has the name. -/
def updateFirst (name : String) (f : Model → Model) : List Model → List Model
  | [] => []
  | model :: models =>
    if model.name = name then f model :: models else model :: updateFirst name f models

/-- Changes the built model of a name. -/
def update (g : ModelGraph) (name : String) (f : Model → Model) : ModelGraph :=
  { g with models := updateFirst name f g.models }

/-! ## Building -/

/-- The smallest text of a list. -/
def smallest? (names : List String) : Option String :=
  (names.mergeSort fun a b => decide (a ≤ b)).head?

/-- The fields of a scanned model as a table. -/
def fieldTable (scanned : List FieldDeclaration) : Table String :=
  Table.ofList (scanned.map fun field => (field.name, field.type))

/-- The model of scanned fields.  Its connections are the fields of a page type and those declared
as relationships. -/
def modelOf (declaration : ModelDeclaration) (enums : List String)
    (scanned : List FieldDeclaration) : Model :=
  (scanned.filter fun field =>
    field.paginated || declaration.relationships.contains field.name).foldl
      (fun model field => model.connect field.name)
      (Model.ofFields declaration.name (fieldTable scanned) enums)

/-- Builds the declared models in order; the first whose fields cannot be had ends the building. -/
def buildModels (view : SchemaView) (enums : List String) :
    List ModelDeclaration → Except Error (List Model)
  | [] => .ok []
  | declaration :: declarations => do
    let scanned ← view.fields declaration.name
    let models ← buildModels view enums declarations
    return modelOf declaration enums scanned :: models

/-- The graph of the declared models in the build set; an empty build set stands for all models.
The smallest name in the build set that is not declared is refused. -/
def build (view : SchemaView) (buildSet : List String) (declarations : List ModelDeclaration)
    (enums : List String) : Except Error ModelGraph :=
  let declared := declarations.map ModelDeclaration.name
  match smallest? (buildSet.filter fun name => !declared.contains name) with
  | some name => .error (.config (.undeclaredCollection name))
  | none => do
    let models ← buildModels view enums
      (declarations.filter fun declaration =>
        buildSet.isEmpty || buildSet.contains declaration.name)
    return ⟨inNameOrder models, declared⟩

/-! ## Fragments -/

mutual

/-- The names in a selection of a model that do not exist, as dotted paths behind `path`, in the
order of the selection.  Below a field that leads to no built model nothing is checked. -/
def unknownFields (g : ModelGraph) (model : Model) (path : String) :
    List Selection → List String
  | [] => []
  | entry :: entries => unknownInEntry g model path entry ++ unknownFields g model path entries

/-- The names in one entry that do not exist. -/
def unknownInEntry (g : ModelGraph) (model : Model) (path : String) : Selection → List String
  | .field name => if model.fields.contains name then [] else [path ++ name]
  | .nested branches => unknownInBranches g model path branches

/-- The names in branches that do not exist. -/
def unknownInBranches (g : ModelGraph) (model : Model) (path : String) :
    List (String × List Selection) → List String
  | [] => []
  | (name, below) :: branches =>
    (match model.fieldType? name with
      | none => [path ++ name]
      | some type =>
        match g.find? (TypeText.baseName type) with
        | some target => unknownFields g target (path ++ name ++ ".") below
        | none => []) ++ unknownInBranches g model path branches

end

/-- Adds or replaces a fragment of a built model, if all names in its selection exist. -/
def addFragment (g : ModelGraph) (model key : String) (selection : List Selection) :
    Except Error ModelGraph :=
  match g.find? model with
  | none => .error (.config (.modelNotBuilt model))
  | some owner =>
    match unknownFields g owner "" selection with
    | [] => .ok (g.update model (·.setFragment key selection))
    | unknown => .error (.unknownFields model key unknown)

end ModelGraph

end SchemaAccess
