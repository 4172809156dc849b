import StructTags.Augment.Basic
import StructTags.Files

/-!
# A pass over a directory

Every regular file directly inside a directory is augmented in place, in the byte order of the
names. The report gets a marker line for each file, a line for each augmentation and the message of
each file that failed. A file that fails does not stop the pass, a report that fails does.

* `Summary`: what a pass counts;
* `Visit`: what became of one file;
* `augmentFile`, `visitFile`, `visitAll`: one file and then all of them;
* `runIn`, `run`: a pass over a given directory and over the working directory.
-/

namespace StructTags

/-! ## 1. Results -/

/-- What a pass counts. -/
structure Summary where
  /-- Regular files visited. -/
  scanned : Nat := 0
  /-- Files to which something was applied. -/
  changed : Nat := 0
  /-- Augmentations applied to files that were written. -/
  augmented : Nat := 0
  /-- Files that could not be read, decoded or written. -/
  failed : Nat := 0
  deriving DecidableEq, Repr

/-- What became of one file. -/
inductive Visit where
  /-- The file was written, with that many augmentations. -/
  | written (applied : Nat)
  /-- The file could not be read or written. -/
  | failed (error : Error)
  deriving DecidableEq, Repr

/-- The counts once a further file was visited. -/
def Summary.count (s : Summary) : Visit → Summary
  | .written applied =>
    { s with
      scanned := s.scanned + 1
      changed := if 0 < applied then s.changed + 1 else s.changed
      augmented := s.augmented + applied }
  | .failed _ => { s with scanned := s.scanned + 1, failed := s.failed + 1 }

/-! ## 2. Journal entries -/

namespace Pass

/-- The target of the events about texts. -/
def textTarget : String := "tagsync_augment::augment"

/-- The target of the events about files. -/
def fileTarget : String := "tagsync_augment::run"

/-- The scope of a whole pass. -/
def runScope (dir : Path) : Log.Scope := ⟨"run", [("dir", dir.display)]⟩

/-- The scope of one file. -/
def fileScope (path : Path) : Log.Scope := ⟨"file", [("op", "augment"), ("path", path.display)]⟩

/-- The event for what was noted about one tag. -/
def noteEvent : Note → Log.Event
  | .kept tag =>
    { severity := .trace, target := textTarget, message := "already has msgpack"
      fields := [("group", .plain (String.ofList tag.text))] }
  | .applied augmentation =>
    { severity := .debug, target := textTarget, message := "applied augmentation"
      fields := [("augmentation", .plain (String.ofList augmentation))] }

/-- The event for a file that was written. -/
def writtenEvent (applied : Nat) : Log.Event :=
  { severity := .debug, target := fileTarget, message := "file written"
    fields := [("applied", .number applied)] }

/-- The event for a file that failed. -/
def failedEvent (e : Error) : Log.Event :=
  { severity := .warn, target := fileTarget, message := e.message
    fields := [("code", .plain e.code.text)] }

/-- The event for a pass that came to its end. -/
def completeEvent (s : Summary) : Log.Event :=
  { severity := .info, target := fileTarget, message := "run complete"
    fields := [("scanned", .number s.scanned), ("rewritten", .number s.changed),
      ("augmented", .number s.augmented), ("failed", .number s.failed)] }

end Pass

/-! ## 3. Files -/

open Pass

section

variable {m : Type → Type} [Monad m] (host : Host m)

/-- Does some work inside a scope of the log. -/
def Host.within {α : Type} (scope : Log.Scope) (work : m α) : m α := do
  host.log (.opened scope)
  let result ← work
  host.log .closed
  return result

/-- Writes one line of the report. -/
def Host.report (line : String) : m (Except Error Unit) := do
  match ← host.print (line ++ "\n") with
  | .ok () => return .ok ()
  | .error fault => return .error (.internal "failed to write report" [fault.message])

/-- Writes lines of the report until one fails. -/
def Host.reportAll : List String → m (Except Error Unit)
  | [] => return .ok ()
  | line :: lines => do
    match ← host.report line with
    | .error e => return .error e
    | .ok () => Host.reportAll lines

/-- Logs entries one after the other. -/
def Host.logAll : List Log.Signal → m Unit
  | [] => return ()
  | signal :: signals => do
    host.log signal
    Host.logAll signals

/-- Notes in the log that a file failed. -/
def giveUp (e : Error) : m (Except Error Visit) := do
  host.logAll [.recorded "error" e.message, .event (failedEvent e)]
  return .ok (.failed e)

/-- Reads, augments and writes one file. It is written even if nothing changed. An error of the
    outer kind means that the report failed. -/
def augmentFile (path : Path) : m (Except Error Visit) :=
  host.within (fileScope path) do
    match ← readText host path with
    | .error e => giveUp host e
    | .ok text =>
      let result := augment text
      host.logAll (result.notes.map fun note => .event (noteEvent note))
      match ← host.reportAll (result.applied.map String.ofList) with
      | .error e => return .error e
      | .ok () =>
        match ← overwrite host path result.text with
        | .error e => giveUp host e
        | .ok () =>
          host.log (.event (writtenEvent result.applied.length))
          return .ok (.written result.applied.length)

/-- The marker line of a file. -/
def markerLine (path : Path) : String := "--> " ++ path.display

/-- Visits one file: its marker, the file itself, and the message if it failed. -/
def visitFile (path : Path) : m (Except Error Visit) := do
  match ← host.report (markerLine path) with
  | .error e => return .error e
  | .ok () =>
    match ← augmentFile host path with
    | .ok (.failed e) =>
      match ← host.report e.message with
      | .error e' => return .error e'
      | .ok () => return .ok (.failed e)
    | result => return result

/-- Visits files one after the other, on top of what was counted before. -/
def visitAll : Summary → List Path → m (Except Error Summary)
  | summary, [] => return .ok summary
  | summary, path :: paths => do
    match ← visitFile host path with
    | .error e => return .error e
    | .ok visit => visitAll (summary.count visit) paths

/-! ## 4. Directories -/

/-- A pass over the regular files directly inside a directory. -/
def runIn (dir : Path) : m (Except Error Summary) :=
  host.within (runScope dir) do
    match ← listFiles host dir with
    | .error e => return .error e
    | .ok paths =>
      match ← visitAll host {} paths with
      | .error e => return .error e
      | .ok summary =>
        host.log (.event (completeEvent summary))
        return .ok summary

/-- A pass over the working directory. -/
def run : m (Except Error Summary) := do
  match ← host.workingDirectory with
  | .error fault =>
    return .error (.internal "failed to determine working directory" [fault.message])
  | .ok dir => runIn host dir

end

end StructTags
