import SchemaAccess.Config.Json
import SchemaAccess.Emission
import SchemaAccess.Files.Store
import SchemaAccess.Generation.Basic

/-!
# Generating from a configuration

A configuration names files; over a file store it leads to a generation.

* `Config.load` — the configuration in a file.
* `Config.readSource`, `Config.readBuild` — the two schema texts.
* `Config.loadFragments`, `Config.loadHooks` — the overrides.
* `Config.generate` — the generation.
* `Config.write` — emits a generation below a folder.
-/

namespace SchemaAccess

variable {m : Type → Type} [Monad m]

/-- The text of a file that the run cannot do without. -/
def FileStore.requireText (store : FileStore m) (path : String) : ExceptT Error m String :=
  (store.readText path).adapt (Error.file path)

/-- The overrides that a source leads to. -/
def OverrideSource.load {α : Type} (store : FileStore m) (kind : OverrideKind)
    (read : String → Except Json.Problem (ModelTable α)) :
    OverrideSource (ModelTable α) → ExceptT Error m (ModelTable α)
  | none => return Table.empty
  | inline overrides => return overrides
  | file path => do
    let text ← (store.readText path).adapt fun fault =>
      .config (.unreadableOverrides kind path fault)
    match read text with
    | .ok overrides => return overrides
    | .error _ => throw (.config (.malformedOverrides kind path))

namespace Config

/-- The configuration in a file.  Its paths are relative to the folder of the file. -/
def load (store : FileStore m) (path : String) : ExceptT Error m Config := do
  let text ← store.requireText path
  let config ← ExceptT.mk (pure ((read text).mapError .json))
  let resolved := config.resolve ((Path.parent? path).getD ".")
  ExceptT.mk (pure resolved.check)
  return resolved

/-- The text of the source schema. -/
def readSource (store : FileStore m) (config : Config) : ExceptT Error m String :=
  store.requireText config.sourceSchema

/-- The text of the build schema. -/
def readBuild (store : FileStore m) (config : Config) : ExceptT Error m String :=
  store.requireText config.buildSchema

/-- The fragments of a configuration. -/
def loadFragments (store : FileStore m) (config : Config) : ExceptT Error m FragmentOverrides :=
  config.fragments.load store .fragment readFragments

/-- The hooks of a configuration. -/
def loadHooks (store : FileStore m) (config : Config) : ExceptT Error m HookOverrides :=
  config.hooks.load store .hook readHooks

/-- The generation of a configuration. -/
def generate (store : FileStore m) (config : Config) : ExceptT Error m Generation := do
  ExceptT.mk (pure config.check)
  let source ← config.readSource store
  let build ← config.readBuild store
  let fragments ← config.loadFragments store
  let hooks ← config.loadHooks store
  ExceptT.mk (pure do
    let view ← config.reading.view source build
    SchemaAccess.generate view config.collections fragments hooks)

/-- Emits a generation as JSON files below a folder and returns the number of files. -/
def write (store : FileStore m) (config : Config) (folder : String) (g : Generation) :
    ExceptT Error m Nat :=
  emit .json (store.writeBelow folder) g config.useESM

end Config

end SchemaAccess
