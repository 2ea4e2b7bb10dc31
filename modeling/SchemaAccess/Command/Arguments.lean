import SchemaAccess.Config.Basic

/-!
# Command line arguments

Arguments are read from left to right.  The first one that asks for the version or for help, or
that is misused, ends the reading.

* `Switch` — the options of the command.
* `Argument` — an argument by its looks.
* `Settings` — what the options decide.
* `Settings.read` — the settings of a list of arguments, or what ends the reading.

An option with a value takes it from behind an equals sign, for a short option from the rest of
the argument, or from the next argument unless that one looks like an option.
-/

namespace SchemaAccess.Command

/-! ## Options -/

/-- The options of the command. -/
inductive Switch where
  | config
  | out
  | parser
  | debug
  | dump
  | version
  | help
  deriving DecidableEq

namespace Switch

/-- The options, in the order of the usage text. -/
def all : List Switch := [config, out, parser, debug, dump, version, help]

/-- The long name of an option. -/
def name : Switch → String
  | config => "config"
  | out => "out"
  | parser => "parser"
  | debug => "debug"
  | dump => "dump"
  | version => "version"
  | help => "help"

/-- The letter of an option with a short form. -/
def letter? : Switch → Option Char
  | config => some 'c'
  | out => some 'o'
  | version => some 'V'
  | help => some 'h'
  | parser => none
  | debug => none
  | dump => none

/-- True of an option that is followed by a value. -/
def takesValue : Switch → Bool
  | config => true
  | out => true
  | parser => true
  | debug => false
  | dump => false
  | version => false
  | help => false

/-- What an option does, for the usage text. -/
def purpose : Switch → String
  | config => "the file of the configuration"
  | out => "the folder to write to"
  | parser => "how schemas are read: text or document"
  | debug => "report the steps of the run"
  | dump => "print the generation instead of writing files"
  | version => "print the version"
  | help => "print this text"

/-- The option of a long name. -/
def ofName? (text : String) : Option Switch := all.find? fun switch => switch.name = text

/-- The option of a letter. -/
def ofLetter? (c : Char) : Option Switch := all.find? fun switch => switch.letter? = some c

end Switch

/-! ## Misuse -/

/-- How arguments can be wrong. -/
inductive Misuse where
  | unknown (argument : String)
  | repeated (switch : Switch)
  | withoutValue (switch : Switch)
  | unexpectedValue (switch : Switch)
  | unusableValue (switch : Switch) (value : String)
  deriving DecidableEq

/-- The wording of a misuse. -/
def Misuse.message : Misuse → String
  | unknown argument => "unexpected argument " ++ argument
  | repeated switch => "option --" ++ switch.name ++ " is given twice"
  | withoutValue switch => "option --" ++ switch.name ++ " needs a value"
  | unexpectedValue switch => "option --" ++ switch.name ++ " takes no value"
  | unusableValue switch value => "option --" ++ switch.name ++ " cannot be \"" ++ value ++ "\""

/-- What ends the reading of arguments. -/
inductive Ending where
  | version
  | help
  | misuse (misuse : Misuse)
  deriving DecidableEq

/-! ## Settings -/

/-- What the options decide. -/
structure Settings where
  /-- The file of the configuration, if given. -/
  config : Option String
  /-- The folder to write to, if given. -/
  out : Option String
  /-- How schemas are read, if given. -/
  reading : Option SchemaReading
  debug : Bool
  dump : Bool
  deriving DecidableEq

namespace Settings

/-- The settings without any option. -/
def initial : Settings := ⟨none, none, none, false, false⟩

/-- The file of the configuration. -/
def configPath (settings : Settings) : String := settings.config.getD "amplify-orm.json"

/-- The folder to write to. -/
def outFolder (settings : Settings) : String := settings.out.getD "generated"

/-- Gives an option a value. -/
def assign (settings : Settings) (switch : Switch) (value : String) : Except Ending Settings :=
  match switch with
  | .config =>
    if settings.config.isSome then .error (.misuse (.repeated switch))
    else if value.isEmpty then .error (.misuse (.unusableValue switch value))
    else .ok { settings with config := some value }
  | .out =>
    if settings.out.isSome then .error (.misuse (.repeated switch))
    else if value.isEmpty then .error (.misuse (.unusableValue switch value))
    else .ok { settings with out := some value }
  | .parser =>
    if settings.reading.isSome then .error (.misuse (.repeated switch))
    else
      match SchemaReading.ofName? value with
      | some reading => .ok { settings with reading := some reading }
      | none => .error (.misuse (.unusableValue switch value))
  | _ => .error (.misuse (.unexpectedValue switch))

/-- Applies an option without a value. -/
def turnOn (settings : Settings) (switch : Switch) : Except Ending Settings :=
  match switch with
  | .debug =>
    if settings.debug then .error (.misuse (.repeated switch))
    else .ok { settings with debug := true }
  | .dump =>
    if settings.dump then .error (.misuse (.repeated switch))
    else .ok { settings with dump := true }
  | .version => .error .version
  | .help => .error .help
  | _ => .error (.misuse (.withoutValue switch))

end Settings

/-! ## Arguments -/

/-- An argument by its looks. -/
inductive Argument where
  /-- Two dashes, after which there are no more options. -/
  | separator
  /-- A long option, with what stands behind an equals sign. -/
  | long (name : String) (value? : Option String)
  /-- The letters behind a single dash. -/
  | short (letters : List Char)
  /-- Anything else, a lone dash included. -/
  | plain (text : String)

/-- The argument of a text. -/
def Argument.ofText (text : String) : Argument :=
  match text.toList with
  | ['-', '-'] => separator
  | '-' :: '-' :: rest =>
    long (String.ofList (rest.takeWhile (· ≠ '=')))
      (match rest.dropWhile (· ≠ '=') with
        | [] => none
        | _ :: value => some (String.ofList value))
  | '-' :: c :: rest => short (c :: rest)
  | _ => plain text

namespace Settings

/-- Reads a long option.  If it still needs a value, it is returned. -/
def readLong (settings : Settings) (name : String) (value? : Option String) :
    Except Ending (Settings × Option Switch) :=
  match Switch.ofName? name, value? with
  | none, _ => .error (.misuse (.unknown ("--" ++ name)))
  | some switch, some value =>
    if switch.takesValue then (settings.assign switch value).map (·, none)
    else .error (.misuse (.unexpectedValue switch))
  | some switch, none =>
    if switch.takesValue then .ok (settings, some switch)
    else (settings.turnOn switch).map (·, none)

/-- Reads short options.  If the last one still needs a value, it is returned. -/
def readShort (settings : Settings) : List Char → Except Ending (Settings × Option Switch)
  | [] => .ok (settings, none)
  | c :: cs =>
    match Switch.ofLetter? c with
    | none => .error (.misuse (.unknown (String.ofList ['-', c])))
    | some switch =>
      if switch.takesValue then
        match cs with
        | [] => .ok (settings, some switch)
        | '=' :: value => (settings.assign switch (String.ofList value)).map (·, none)
        | value => (settings.assign switch (String.ofList value)).map (·, none)
      else
        match settings.turnOn switch with
        | .ok settings => readShort settings cs
        | .error ending => .error ending

/-- Reads arguments while an option may be waiting for its value. -/
def readFrom (settings : Settings) (waiting : Option Switch) :
    List String → Except Ending Settings
  | [] =>
    match waiting with
    | none => .ok settings
    | some switch => .error (.misuse (.withoutValue switch))
  | text :: rest =>
    match waiting, Argument.ofText text with
    | some switch, .plain value =>
      match settings.assign switch value with
      | .ok settings => readFrom settings none rest
      | .error ending => .error ending
    | some switch, _ => .error (.misuse (.withoutValue switch))
    | none, .plain text => .error (.misuse (.unknown text))
    | none, .separator =>
      match rest with
      | [] => .ok settings
      | extra :: _ => .error (.misuse (.unknown extra))
    | none, .long name value? =>
      match settings.readLong name value? with
      | .ok (settings, waiting) => readFrom settings waiting rest
      | .error ending => .error ending
    | none, .short letters =>
      match settings.readShort letters with
      | .ok (settings, waiting) => readFrom settings waiting rest
      | .error ending => .error ending

/-- The settings of a list of arguments. -/
def read (arguments : List String) : Except Ending Settings := initial.readFrom none arguments

end Settings

end SchemaAccess.Command
