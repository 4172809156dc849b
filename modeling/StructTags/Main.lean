import StructTags.Cli.Program

/-!
# The executable

The services of the real machine, and the entry point. Everything that is decided is decided by
`Cli.Plan.of` and `Cli.runProgram`; this file only carries it out.
-/

namespace StructTags.Main

/-- The fault that an error of the machine stands for. -/
def faultOf : IO.Error → Fault
  | .noFileOrDirectory .. => .notFound
  | .permissionDenied .. => .denied
  | .inappropriateType .. => .notDirectory
  | e => .other (toString e)

/-- Does some work and returns its fault instead of throwing it. -/
def attempt {α : Type} (work : IO α) : IO (Except Fault α) := do
  try
    return .ok (← work)
  catch e =>
    return .error (faultOf e)

/-- The name of an entry. -/
def nameOf (text : String) : Except Fault Name :=
  if h : IsName (Text.bytesOf text) then .ok ⟨Text.bytesOf text, h⟩ else .error .badPath

/-- The entries of a directory. -/
def entriesOf (path : Path) : IO (List (Except Fault Name)) := do
  let found ← ((← IO.currentDir) / path.display).readDir
  return found.toList.map fun entry => nameOf entry.fileName

/-- Whether a path leads to a regular file. What cannot be examined is not taken for one. -/
def isFileAt (path : Path) : IO Bool := do
  try
    return (← ((← IO.currentDir) / path.display).metadata).type == .file
  catch _ =>
    return false

/-- The open scopes, each with the time at which it was opened, innermost first. -/
abbrev OpenScopes := List Log.Scope × List Nat

/-- What the machine keeps of the log: how it is set up, and the scopes that are open. -/
structure LogState where
  subscriber : Option Log.Subscriber := none
  scopes : OpenScopes := ([], [])

/-- Writes a line of the log to where the log is written. -/
def writeLine (writer : Log.Writer) (line : String) : IO Unit :=
  match writer with
  | .standardError => IO.eprintln line
  | .standardOutput => IO.println line

/-- Takes an entry of the journal. -/
def logTo (state : IO.Ref LogState) (begun : Nat) (signal : Log.Signal) : IO Unit := do
  let now ← IO.monoMsNow
  let { subscriber, scopes := (current, times) } ← state.get
  if let some s := subscriber then
    let marks : Log.Marks :=
      { time := toString (now - begun) ++ "ms"
        place := "main"
        duration := toString (now - times.headD now) ++ "ms" }
    for line in Log.linesOf s.config marks current signal do
      writeLine s.writer line
    let times := match signal with
      | .opened _ => now :: times
      | .closed => times.tail
      | _ => times
    state.set { subscriber, scopes := (Log.afterSignal s.config current signal, times) }

/-- The services of the machine. -/
def machine (state : IO.Ref LogState) (begun : Nat) : Cli.System IO where
  workingDirectory := attempt do
    return .ofText (← IO.currentDir).toString
  entries path := attempt (entriesOf path)
  isFile := isFileAt
  read path := attempt (IO.FS.readBinFile path.display)
  write path content := attempt (IO.FS.writeBinFile path.display content)
  print text := attempt do
    let output ← IO.getStdout
    output.putStr text
    output.flush
  log := logTo state begun
  setUp config := do
    let { subscriber, scopes } ← state.get
    match Log.setUp subscriber config with
    | .error e => return .error e
    | .ok subscriber =>
      state.set { subscriber := some subscriber, scopes }
      return .ok ()
  flush := attempt do (← IO.getStdout).flush
  complain line := IO.eprintln line

/-- The variables that the program looks at. -/
def variableNames : List String :=
  ["TAGSYNC_LOG_LEVEL", "RUST_LOG", "TAGSYNC_LOG_FORMAT", "TAGSYNC_LOG_SOURCE", "TAGSYNC_LOG_SPANS",
   "COLUMNS"]

/-- The environment as far as the program looks at it. -/
def environment : IO Log.Environment := do
  let values ← variableNames.mapM fun name => return (name, ← IO.getEnv name)
  return fun name => (values.lookup name).join

/-- Carries out the plan for the given arguments and returns the exit status. -/
def start (arguments : List String) : IO UInt32 := do
  match Cli.Plan.of arguments (← environment) with
  | .answer text =>
    discard (attempt ((← IO.getStdout).putStr text))
    return 0
  | .refuse error =>
    IO.eprintln error.complaint
    return Cli.usageStatus.toUInt32
  | .pass config =>
    let state ← IO.mkRef ({} : LogState)
    let begun ← IO.monoMsNow
    return (← Cli.runProgram (machine state begun) config).toUInt32

end StructTags.Main

/-- Runs the program. -/
def main (arguments : List String) : IO UInt32 := StructTags.Main.start arguments
