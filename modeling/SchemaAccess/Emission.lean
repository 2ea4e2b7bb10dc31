import SchemaAccess.Files.Path
import SchemaAccess.Generation.Json

/-!
# Emission

A generation is emitted as files: one for each collection, an index of the collections, the query
inputs and the input types.  What a file says is up to a renderer, where it goes is up to a writer;
the emission decides which template is rendered with which bindings and in which order.

* `Renderer` — renders a template with bindings.
* `PlannedFile`, `plan` — the files of a generation, in order.
* `emitThrough`, `emit` — renders and writes them one by one, up to the first failure.
* `Renderer.json` — writes the bindings themselves.
-/

namespace SchemaAccess

/-- Renders templates. -/
structure Renderer where
  /-- The text of a template with bindings. -/
  render : String → Json → Except Error String
  /-- The extension of rendered files. -/
  fileExtension : String

/-- A file that is to be rendered and written. -/
structure PlannedFile where
  path : String
  template : String
  bindings : Json

/-! ## The plan -/

/-- Bindings for a template; the entries of all objects are in key order. -/
def bindingsOf (useESM : Bool) (entries : List (String × Json)) : Json :=
  (Json.object (entries ++ [("useESM", .bool useESM)])).sortKeys

/-- The path of a file in the folder of the collections. -/
def collectionPath (name fileExtension : String) : String :=
  Path.join "collections" (name ++ "." ++ fileExtension)

/-- The file of a collection. -/
def collectionFile (fileExtension : String) (useESM : Bool) (c : Collection) : PlannedFile where
  path := collectionPath c.name fileExtension
  template := "collection"
  bindings := bindingsOf useESM [("model", c.toJson)]

/-- The files of a generation, in the order in which they are written. -/
def plan (g : Generation) (fileExtension : String) (useESM : Bool) : List PlannedFile :=
  g.collections.map (collectionFile fileExtension useESM) ++ [
    { path := collectionPath "index" fileExtension
      template := "collectionIndex"
      bindings := bindingsOf useESM [("collections", .array (g.collections.map fun c =>
        .object [("name", .string c.model.name), ("collectionName", .string c.name)]))] },
    { path := "queryInputs." ++ fileExtension
      template := "queryInputs"
      bindings := bindingsOf useESM [("queryInputs", g.queryInputs.tablesToJson)] },
    { path := "inputTypes." ++ fileExtension
      template := "inputTypes"
      bindings := bindingsOf useESM
        [("inputs", g.inputs.tablesToJson), ("enums", g.enums.toJson .strings)] }]

/-! ## Execution -/

section

variable {m : Type → Type} [Monad m]

/-- Renders and writes files one by one, up to the first failure, and counts them on top of those
that have been written before. -/
def emitFiles (render : String → Json → ExceptT Error m String)
    (write : String → String → ExceptT Error m Unit) (written : Nat) :
    List PlannedFile → ExceptT Error m Nat
  | [] => return written
  | file :: files => do
    let contents ← render file.template file.bindings
    write file.path contents
    emitFiles render write (written + 1) files

/-- Emits a generation and returns the number of files.  What is rendered may depend on what has
happened before. -/
def emitThrough (render : String → Json → ExceptT Error m String) (fileExtension : String)
    (write : String → String → ExceptT Error m Unit) (g : Generation) (useESM : Bool) :
    ExceptT Error m Nat :=
  emitFiles render write 0 (plan g fileExtension useESM)

/-- Renders as the renderer does, which depends on the template and its bindings only. -/
def Renderer.run (renderer : Renderer) (template : String) (bindings : Json) :
    ExceptT Error m String :=
  ExceptT.mk (pure (renderer.render template bindings))

/-- Emits a generation with a renderer and returns the number of files. -/
def emit (renderer : Renderer) (write : String → String → ExceptT Error m Unit)
    (g : Generation) (useESM : Bool) : ExceptT Error m Nat :=
  emitThrough renderer.run renderer.fileExtension write g useESM

end

/-! ## Bindings as output -/

/-- The text that shows a template and its bindings. -/
def bindingsText (template : String) (bindings : Json) : String :=
  (Json.object [("bindings", bindings), ("template", .string template)]).sortKeys.pretty

/-- The renderer that writes the bindings themselves. -/
def Renderer.json : Renderer where
  render template bindings := .ok (bindingsText template bindings)
  fileExtension := "json"

end SchemaAccess
