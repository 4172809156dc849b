import StructTags.Proofs.Cli.Machine
import StructTags.Proofs.Pass.Limit

/-!
# How the program ends

Three things may end a pass early: the working directory is lost, it cannot be listed, or the
report is full. Each has its own error; what becomes of the single files is none of them. The log,
which is set up once, and standard output, which holds nothing back in the end, add nothing to that.

* `Disk.Listed`, `Disk.Unlisted`: the working directory can be determined, and listed or not;
* `World.start`, `Machine.start`: the world and the process in which the program starts;
* `run_of_not_listed`, `run_of_fits`, `run_of_full`: the ways in which a pass over the working
  directory goes;
* **`run_start`**: when a pass from the start ends well, and with which error it ends if not;
* **`session_status`**: the exit status, the error in the log, and the files.
-/

namespace StructTags

/-! ## 1. The pass over the working directory -/

namespace Disk

variable {disk disk' : Disk}

/-- The working directory can be determined and listed. -/
def Listed (disk : Disk) : Prop :=
  ∃ dir names, disk.workingDirectory = .ok dir ∧ disk.Lists dir names

/-- The working directory can be determined and not listed. -/
def Unlisted (disk : Disk) : Prop :=
  ∃ dir, disk.workingDirectory = .ok dir ∧ ∀ names, ¬ disk.Lists dir names

theorem Listed.not_unlisted (h : disk.Listed) : ¬ disk.Unlisted := by
  intro hunlisted
  obtain ⟨dir', hdir', hnone⟩ := hunlisted
  obtain ⟨dir, names, hdir, hnames⟩ := h
  obtain rfl := Except.ok.inj (hdir.symm.trans hdir')
  exact hnone names hnames

/-- A directory can be listed if a pass gets the paths of its files. -/
theorem listed_iff :
    disk.Listed ↔ ∃ dir paths, disk.workingDirectory = .ok dir ∧ disk.files dir = .ok paths := by
  constructor
  · intro h
    obtain ⟨dir, names, hdir, hnames⟩ := h
    exact ⟨dir, _, hdir, hnames.files⟩
  · intro h
    obtain ⟨dir, paths, hdir, hpaths⟩ := h
    obtain ⟨names, hnames, -⟩ := files_eq_ok_iff.mp hpaths
    exact ⟨dir, names, hdir, hnames⟩

end Disk

/-- The error for a working directory that cannot be determined. -/
def lostError (fault : Fault) : Error :=
  .internal "failed to determine working directory" [fault.message]

section

variable {w : World}

theorem run_of_lost {fault : Fault} (h : w.disk.workingDirectory = .error fault) :
    run World.host w = (.error (lostError fault), w) := by
  have hlost : World.host.workingDirectory w = (.error fault, w) := Prod.ext h rfl
  rw [run, bind_state, hlost]
  rfl

/-- With its working directory in place, the program makes a pass over it. -/
theorem run_of_found {dir : Path} (h : w.disk.workingDirectory = .ok dir) :
    run World.host w = runIn World.host dir w := by
  have hfound : World.host.workingDirectory w = (.ok dir, w) := Prod.ext h rfl
  rw [run, bind_state, hfound]

/-- **A directory that is lost, or cannot be listed, ends the program at once**, with an error of the
    file system exactly if it is there. -/
theorem run_of_not_listed (h : ¬ w.disk.Listed) :
    ∃ e, (run World.host w).1 = .error e ∧ (run World.host w).2.disk = w.disk ∧
      (run World.host w).2.report = w.report ∧ (e.isFileSystem = true ↔ w.disk.Unlisted) := by
  cases hdir : w.disk.workingDirectory with
  | error fault =>
    have hnot : ¬ w.disk.Unlisted := by
      intro hunlisted
      obtain ⟨dir, hdir', -⟩ := hunlisted
      cases hdir.symm.trans hdir'
    rw [run_of_lost hdir]
    exact ⟨_, rfl, rfl, rfl, iff_of_false nofun hnot⟩
  | ok dir =>
    have hnone : ∀ names, ¬ w.disk.Lists dir names := fun names hnames => h ⟨dir, names, hdir, hnames⟩
    obtain ⟨e, he, hsystem⟩ := Disk.files_of_not_lists hnone
    rw [run_of_found hdir, runIn_of_unlisted he]
    exact ⟨e, rfl, rfl, rfl, iff_of_true hsystem ⟨dir, hdir, hnone⟩⟩

end

/-! ## 2. The start -/

/-- The world in which the program starts: nothing is reported or logged, and the report takes so
    many bytes, or all. -/
def World.start (disk : Disk) (limit : Option Nat) : World := { disk, report := { limit } }

namespace World

theorem fits_start (disk : Disk) (limit : Option Nat) : (start disk limit).report.Fits :=
  fun _ _ => Nat.zero_le _

theorem hasRoom_start (disk : Disk) {limit : Option Nat} {count : Nat}
    (h : ∀ l ∈ limit, count ≤ l) : (start disk limit).report.hasRoom count = true := by
  cases limit with
  | none => rfl
  | some l =>
    rw [start, Sink.hasRoom, decide_eq_true_eq, List.length_nil, Nat.zero_add]
    exact h l rfl

end World

section

variable {disk : Disk} {limit : Option Nat} {dir : Path} {paths : List Path}

/-- **A directory that is listed, and a report that takes all**: the pass ends well, whatever becomes
    of the files. -/
theorem run_of_fits (hdir : disk.workingDirectory = .ok dir) (hfiles : disk.files dir = .ok paths)
    (hfits : ∀ l ∈ limit, ((encounters disk paths).flatMap Encounter.block).length ≤ l) :
    run World.host (World.start disk limit) =
        (.ok (Summary.countAll {} (encounters disk paths)), {
          disk := disk.pass paths
          report := (World.start disk limit).report.offer
            ((encounters disk paths).flatMap Encounter.block)
          journal := .opened (Pass.runScope dir) ::
            ((encounters disk paths).flatMap Encounter.signals ++
              [.event (Pass.completeEvent (Summary.countAll {} (encounters disk paths))),
                .closed]) }) ∧
      (run World.host (World.start disk limit)).2.report.taken =
        (encounters disk paths).flatMap Encounter.block := by
  have hroom := World.hasRoom_start disk hfits
  have hrun := runIn_of_room hfiles (World.fits_start disk limit) hroom
  rw [run_of_found hdir, hrun]
  exact ⟨rfl, (Sink.hasRoom_iff (World.fits_start disk limit) _).mp hroom⟩

/-- **A directory that is listed, and a report that does not take all**: the pass ends with the error
    of the report. -/
theorem run_of_full {l : Nat} (hdir : disk.workingDirectory = .ok dir)
    (hfiles : disk.files dir = .ok paths)
    (hlt : l < ((encounters disk paths).flatMap Encounter.block).length) :
    (run World.host (World.start disk (some l))).1 = .error reportError ∧
      (run World.host (World.start disk (some l))).2.report.taken =
        ((encounters disk paths).flatMap Encounter.block).take l ∧
      (run World.host (World.start disk (some l))).2.disk = disk.pass (paths.take
        ((blockEnds 0 (encounters disk paths)).countP (· ≤ l))) := by
  rw [run_of_found hdir]
  exact runIn_limited_of_lt (w := World.start disk none) hfiles hlt

/-- **How a pass from the start ends.** It ends well exactly if the directory is listed and the
    report takes all that would be written to one without a limit. The error is one of the file
    system exactly if the directory is there and cannot be listed. -/
theorem run_start (disk : Disk) (limit : Option Nat) :
    ((∃ summary, (run World.host (World.start disk limit)).1 = .ok summary) ∧ disk.Listed ∧
        ∀ l ∈ limit, (run World.host (World.start disk none)).2.report.taken.length ≤ l) ∨
      ∃ e, (run World.host (World.start disk limit)).1 = .error e ∧
        (e.isFileSystem = true ↔ disk.Unlisted) ∧
        ¬ (disk.Listed ∧
          ∀ l ∈ limit, (run World.host (World.start disk none)).2.report.taken.length ≤ l) := by
  by_cases hlisted : disk.Listed
  · obtain ⟨dir, paths, hdir, hfiles⟩ := Disk.listed_iff.mp hlisted
    have hall : ∀ l ∈ none, ((encounters disk paths).flatMap Encounter.block).length ≤ l := nofun
    rw [(run_of_fits hdir hfiles hall).2]
    by_cases hfits : ∀ l ∈ limit, ((encounters disk paths).flatMap Encounter.block).length ≤ l
    · exact .inl ⟨⟨_, congrArg Prod.fst (run_of_fits hdir hfiles hfits).1⟩, hlisted, hfits⟩
    · have hfits' := hfits
      push Not at hfits
      obtain ⟨l, rfl, hlt⟩ := hfits
      exact .inr ⟨reportError, (run_of_full hdir hfiles hlt).1,
        iff_of_false nofun hlisted.not_unlisted, fun hboth => hfits' hboth.2⟩
  · obtain ⟨e, hrun, -, -, he⟩ := run_of_not_listed (w := World.start disk limit) hlisted
    exact .inr ⟨e, hrun, he, fun hboth => hlisted hboth.1⟩

end

/-! ## 3. Sessions -/

namespace Cli

/-- The process in which the program starts: there is no log, nothing is held back, and standard
    output takes so many bytes, or all. -/
def Machine.start (disk : Disk) (limit : Option Nat) : Machine := { disk, output := { limit } }

section

variable {arguments : List String} {options : Options}

/-- A session with a pass has the status of the program, the report and the disk of the pass, and
    the lines of its journal. -/
theorem Session.of_start (h : parse arguments = .ok (.pass options)) (env : Log.Environment)
    (marks : Log.Marks) (disk : Disk) (limit : Option Nat) :
    Session.of arguments env marks (.start disk limit) =
      { status := (outcome (.start disk limit)).1
        output := (run World.host (.start disk limit)).2.report.taken
        errorLines :=
          Log.render (logConfig options env) marks [] (outcome (.start disk limit)).2.journal
        disk := (run World.host (.start disk limit)).2.disk } := by
  obtain ⟨hdisk, hreport⟩ := disk_outcome (.start disk limit)
  rw [← hdisk, ← hreport]
  exact Session.of_pass h env marks rfl rfl (World.fits_start disk limit)

end

/-- A disk with a directory, in which the process runs, and one file of one tag there. -/
def smallDisk : Disk where
  nodes := [
    sampleRoot,
    { body := .directory { entries := [(.fileA, 2)], parent := 0 }, mode := .newDirectory },
    .newFile (Text.encode "`json:\"a\"`".toList)]
  here := 1

end Cli

end StructTags
