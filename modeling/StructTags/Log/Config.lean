import StructTags.Log.Level

/-!
# Log configuration

The environment chooses level, format and two switches, the command line may override the level.

* `Config.ofEnvironment`: each setting reads its own variable, the level a second one if the first
  is not set; a word that is not recognised leaves the default;
* `Config.withVerbosity`: what the command line changes;
* `Subscriber.of`, `setUp`: the log that is set up for a configuration, once in a process.
-/

namespace StructTags.Log

/-! ## 1. Settings -/

/-- How log lines look. -/
inductive Format where
  | pretty
  | compact
  | json
  deriving DecidableEq, Repr

namespace Format

/-- The name of a format in a configuration. -/
def name : Format → String
  | pretty => "pretty"
  | compact => "compact"
  | json => "json"

/-- The format that a word names, whatever its case; every other word means `pretty`. -/
def ofText (word : String) : Format :=
  if Text.lowered word = json.name then json
  else if Text.lowered word = compact.name then compact
  else pretty

end Format

/-- What the log shows and how. -/
structure Config where
  /-- The least severity shown. -/
  level : Level := .warn
  format : Format := .pretty
  /-- Whether a line names the place in the program. -/
  sourceLocation : Bool := false
  /-- Whether the opening and the closing of a scope are events. -/
  scopeEvents : Bool := false
  /-- Whether a line names the target of its event. -/
  targets : Bool := false
  deriving DecidableEq, Repr

/-! ## 2. The environment -/

/-- The values of the variables that are set. -/
abbrev Environment := String → Option String

/-- Whether a value switches a setting on: the word true in any case, or 1. -/
def isTruthy (value : String) : Bool := Text.lowered value = "true" || value = "1"

namespace Config

/-- The configuration that the environment asks for. -/
def ofEnvironment (env : Environment) : Config where
  level := ((env "TAGSYNC_LOG_LEVEL" <|> env "RUST_LOG").bind Level.ofText?).getD .warn
  format := ((env "TAGSYNC_LOG_FORMAT").map Format.ofText).getD .pretty
  sourceLocation := ((env "TAGSYNC_LOG_SOURCE").map isTruthy).getD false
  scopeEvents := ((env "TAGSYNC_LOG_SPANS").map isTruthy).getD false

/-- The configuration once the command line has its say. -/
def withVerbosity (config : Config) (verbose : Nat) (quiet : Bool) : Config :=
  { config with
    level := if verbose > 0 || quiet then Level.ofVerbosity verbose quiet else config.level
    targets := 2 ≤ verbose }

end Config

/-! ## 3. Setting up -/

/-- Where a log writes its lines. -/
inductive Writer where
  | standardOutput
  | standardError
  deriving DecidableEq, Repr

/-- A log that is set up. -/
structure Subscriber where
  config : Config
  writer : Writer
  deriving DecidableEq, Repr

/-- The log that a configuration asks for. Each format has its own layer, with its own writer. -/
def Subscriber.of (config : Config) : Subscriber :=
  match config.format with
  | .pretty => { config, writer := .standardError }
  | .compact => { config, writer := .standardError }
  | .json => { config, writer := .standardError }

/-- Why a log could not be set up. -/
structure SetupError where
  reason : String
  deriving DecidableEq, Repr

/-- The error as it is shown. -/
def SetupError.message (e : SetupError) : String := "failed to initialize logging: " ++ e.reason

/-- Sets up the log of a process, which may have one already: it is set up only once. -/
def setUp (before : Option Subscriber) (config : Config) : Except SetupError Subscriber :=
  match before with
  | some _ => .error ⟨"a global default trace dispatcher has already been set"⟩
  | none => .ok (.of config)

end StructTags.Log
