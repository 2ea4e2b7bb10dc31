import SchemaAccess.Command.Arguments
import SchemaAccess.Config.Loading
import SchemaAccess.Generation.Json

/-!
# Running the command

The command loads a configuration, generates, and writes the generated files or prints the
generation.  It works over any file store.

* `Failure` — which of these steps failed, and why.
* `execute` — the steps, for given settings.
* `Outcome`, `run` — the whole command, from arguments to exit status and texts.
-/

namespace SchemaAccess.Command

/-! ## The steps -/

/-- The step that failed, and why. -/
inductive Failure where
  | loading (path : String) (error : Error)
  | generating (error : Error)
  | writing (error : Error)
  deriving DecidableEq

/-- The wording of a failure. -/
def Failure.message : Failure → String
  | loading path error => "failed to load config " ++ path ++ ": " ++ error.message
  | generating error => "codegen failed: " ++ error.message
  | writing error => "failed to write output: " ++ error.message

/-- A configuration with what the command line decides. -/
def Settings.override (settings : Settings) (config : Config) : Config :=
  { config with
    reading := settings.reading.getD config.reading
    debug := settings.debug || config.debug }

section

variable {m : Type → Type} [Monad m]

/-- Generates, and returns what is to be printed. -/
def execute (store : FileStore m) (settings : Settings) : ExceptT Failure m String := do
  let config ← (Config.load store settings.configPath).adapt (.loading settings.configPath)
  let config := settings.override config
  let g ← (config.generate store).adapt .generating
  if settings.dump then return g.toJson.pretty ++ "\n"
  else
    let _ ← (config.write store settings.outFolder g).adapt .writing
    return ""

end

/-! ## The command -/

/-- How a run of the command ends. -/
structure Outcome where
  /-- Zero if the command did what was asked. -/
  status : UInt32
  /-- What is printed. -/
  output : String
  /-- What is reported as an error. -/
  complaint : String

/-- The text that names the command and its version. -/
def versionText : String := "amplify-orm-codegen 0.1.0\n"

/-- A line of the usage text. -/
def usageLine (switch : Switch) : String :=
  let short := match switch.letter? with
    | some c => String.ofList ['-', c] ++ ", "
    | none => ""
  "  " ++ short ++ "--" ++ switch.name ++ "  " ++ switch.purpose ++ "\n"

/-- The text that lists the options. -/
def usageText : String :=
  "Usage: amplify-orm-codegen [OPTIONS]\n\nOptions:\n" ++
    String.join (Switch.all.map usageLine)

/-- Runs the command. -/
def run {m : Type → Type} [Monad m] (store : FileStore m) (arguments : List String) :
    m Outcome :=
  match Settings.read arguments with
  | .error .version => return ⟨0, versionText, ""⟩
  | .error .help => return ⟨0, usageText, ""⟩
  | .error (.misuse misuse) => return ⟨2, "", misuse.message ++ "\n"⟩
  | .ok settings => do
    match ← (execute store settings).run with
    | .ok output => return ⟨0, output, ""⟩
    | .error failure => return ⟨1, "", failure.message ++ "\n"⟩

end SchemaAccess.Command
