import StructTags.Cli.Help
import StructTags.Error.Basic
import StructTags.Log.Line
import StructTags.Pass

/-!
# The program

* `FatalError`: an error that ends the program, with its code and the status it ends with;
* `Plan`: what the program is to do, as the arguments and the environment say;
* `System`: what the program needs beside the services of a pass;
* `runProgram`: a pass over the working directory as a program, with its exit status.
-/

namespace StructTags.Cli

/-! ## 1. Fatal errors -/

/-- An error that ends the program. -/
inductive FatalError where
  /-- The pass failed. -/
  | pass (error : Error)
  /-- The log could not be set up. -/
  | logging (error : Log.SetupError)
  /-- Anything else. -/
  | other (message : String)
  deriving DecidableEq, Repr

namespace FatalError

/-- The code under which the error is logged. -/
def code : FatalError → String
  | pass error => if error.isFileSystem then "E002" else "E999"
  | logging _ => "E001"
  | other _ => "E999"

/-- The exit status of the program. -/
def status : FatalError → Nat
  | pass _ => 3
  | logging _ => 1
  | other _ => 1

/-- The error in words. -/
def message : FatalError → String
  | pass error => error.message
  | logging error => error.message
  | other message => message

/-- The event by which the program takes its leave. -/
def event (e : FatalError) : Log.Event :=
  { severity := .error, target := "tagsync", message := e.message
    fields := [("code", .quoted e.code)] }

end FatalError

/-! ## 2. Plans -/

/-- What the program is to do. -/
inductive Plan where
  /-- To answer with a text and end well. -/
  | answer (text : String)
  /-- To complain about its arguments. -/
  | refuse (error : UsageError)
  /-- To make a pass, with this log. -/
  | pass (config : Log.Config)
  deriving DecidableEq, Repr

/-- The exit status after a usage error. -/
def usageStatus : Nat := 2

/-- The plan for given arguments in a given environment. -/
def Plan.of (arguments : List String) (env : Log.Environment) : Plan :=
  match parse arguments with
  | .error error => .refuse error
  | .ok .help => .answer (helpText (windowWidth env))
  | .ok .version => .answer versionText
  | .ok (.pass options) =>
    .pass ((Log.Config.ofEnvironment env).withVerbosity options.verbose options.quiet)

/-! ## 3. The pass as a program -/

/-- The services that the program needs. -/
structure System (m : Type → Type) extends Host m where
  /-- Sets up the log. -/
  setUp : Log.Config → m (Except Log.SetupError Unit)
  /-- Hands on what standard output has held back. -/
  flush : m (Except Fault Unit)
  /-- Writes a line to standard error. -/
  complain : String → m Unit

section

variable {m : Type → Type} [Monad m] (system : System m)

/-- Makes a pass over the working directory, and hands on all of its report. -/
def runPass : m (Except FatalError Unit) := do
  match ← run system.toHost with
  | .error e => return .error (.pass e)
  | .ok _ =>
    match ← system.flush with
    | .error _ => return .error (.other "failed to flush stdout")
    | .ok () => return .ok ()

/-- Sets up the log, makes the pass and returns the exit status. An error that ends the pass is
    logged; without a log it is told on standard error that there is none. -/
def runProgram (config : Log.Config) : m Nat := do
  match ← system.setUp config with
  | .error e =>
    let fatal := FatalError.logging e
    system.complain fatal.message
    return fatal.status
  | .ok () =>
    match ← runPass system with
    | .ok () => return 0
    | .error fatal =>
      system.log (.event fatal.event)
      return fatal.status

end

end StructTags.Cli
