import StructTags.Cli.Program
import StructTags.World

/-!
# A session

One run of the program as a process: what it was given, and what can be seen of it afterwards.

* `Machine`: a process with its disk, its standard output, which is held back until a line ends, its
  log, and its standard error;
* `Machine.system`: the services of a process;
* `Session`: exit status, both outputs, and the disk that is left;
* `Session.of`: the session for given arguments and environment, in a process.
-/

namespace StructTags.Cli

/-! ## 1. Lines -/

/-- The byte that ends a line. -/
def lineFeed : UInt8 := 0x0A

/-- The lines among some bytes that have come to their end. -/
def wholeLines (bytes : List UInt8) : List UInt8 :=
  (bytes.reverse.dropWhile (· ≠ lineFeed)).reverse

/-- The bytes behind the last line that has come to its end. -/
def openLine (bytes : List UInt8) : List UInt8 :=
  (bytes.reverse.takeWhile (· ≠ lineFeed)).reverse

/-! ## 2. Processes -/

/-- A process, as far as the program has to do with it. -/
structure Machine where
  disk : Disk := {}
  /-- What standard output has taken. -/
  output : Sink := {}
  /-- What was printed and is held back, as its line has not come to its end. -/
  buffer : List UInt8 := []
  /-- The log, once it is set up. -/
  subscriber : Option Log.Subscriber := none
  /-- The scopes of the log that are open, innermost first. -/
  scopes : List Log.Scope := []
  /-- The lines on standard error. A line may hold line breaks. -/
  errorLines : List String := []

namespace Machine

/-- Prints a text on standard output. What is refused of the lines that have come to their end is
    lost. -/
def print (text : String) (p : Machine) : Except Fault Unit × Machine :=
  let bytes := p.buffer ++ Text.bytesOf text
  (if p.output.hasRoom (wholeLines bytes).length then .ok () else .error .full,
    { p with output := p.output.offer (wholeLines bytes), buffer := openLine bytes })

/-- Hands on what is held back. -/
def flush (p : Machine) : Except Fault Unit × Machine :=
  (if p.output.hasRoom p.buffer.length then .ok () else .error .full,
    { p with output := p.output.offer p.buffer, buffer := [] })

/-- Writes a line of the log to where the log is written. -/
def writeLine (writer : Log.Writer) (p : Machine) (line : String) : Machine :=
  match writer with
  | .standardError => { p with errorLines := p.errorLines ++ [line] }
  | .standardOutput => (p.print (line ++ "\n")).2

/-- Takes an entry of the journal. Without a log it goes nowhere. -/
def log (marks : Log.Marks) (signal : Log.Signal) (p : Machine) : Machine :=
  match p.subscriber with
  | none => p
  | some s =>
    let written := (Log.linesOf s.config marks p.scopes signal).foldl (writeLine s.writer) p
    { written with scopes := Log.afterSignal s.config p.scopes signal }

/-- The services of a process. -/
def system (marks : Log.Marks) : System (StateM Machine) where
  workingDirectory := fun p => (p.disk.workingDirectory, p)
  entries := fun path p => (p.disk.entries path, p)
  isFile := fun path p => (p.disk.isFile path, p)
  read := fun path p => (p.disk.read path, p)
  write := fun path content p =>
    match p.disk.write path content with
    | .error fault => (.error fault, p)
    | .ok disk => (.ok (), { p with disk })
  print := print
  log := fun signal p => ((), p.log marks signal)
  setUp := fun config p =>
    match Log.setUp p.subscriber config with
    | .error e => (.error e, p)
    | .ok subscriber => (.ok (), { p with subscriber := some subscriber })
  flush := flush
  complain := fun line p => ((), { p with errorLines := p.errorLines ++ [line] })

end Machine

/-! ## 3. Sessions -/

/-- What can be seen of a run of the program. -/
structure Session where
  status : Nat
  /-- The bytes on standard output. -/
  output : List UInt8
  /-- The lines on standard error. -/
  errorLines : List String
  disk : Disk

/-- The session that a process leaves with a status. Where a process ends, standard output is handed
    all that is still held back. -/
def Session.left (status : Nat) (p : Machine) : Session :=
  let p := p.flush.2
  ⟨status, p.output.taken, p.errorLines, p.disk⟩

/-- The run of the program as a process. -/
def Session.of (arguments : List String) (env : Log.Environment) (marks : Log.Marks)
    (p : Machine) : Session :=
  match Plan.of arguments env with
  | .refuse error => .left usageStatus { p with errorLines := p.errorLines ++ [error.complaint] }
  | .answer text => .left 0 (p.print text).2
  | .pass config =>
    let (status, after) := runProgram (Machine.system marks) config p
    .left status after

end StructTags.Cli
