import StructTags.Proofs.Cli.Status
import StructTags.Proofs.Pass.Story

/-!
# What a session tells on standard error

The log of a session tells the story of its pass, as far as its level admits:

* `run_of_ok`: a pass that ends well has listed its directory, reported all and told its story;
* **`session_story`**: the lines of the log, the report and the summary of one and the same pass.
-/

namespace StructTags

open Pass

section

variable {disk : Disk} {limit : Option Nat} {summary : Summary}

/-- **A pass that ends well** has listed its directory, and its report and its events are those of
    all files. -/
theorem run_of_ok (h : (run World.host (World.start disk limit)).1 = .ok summary) :
    ∃ dir names paths, disk.workingDirectory = .ok dir ∧ disk.Lists dir names ∧
      disk.files dir = .ok paths ∧ summary = Summary.countAll {} (encounters disk paths) ∧
      (run World.host (World.start disk limit)).2.report.taken =
        (encounters disk paths).flatMap Encounter.block ∧
      Log.events (run World.host (World.start disk limit)).2.journal =
        story (encounters disk paths) summary := by
  rcases run_start disk limit with ⟨-, ⟨dir, names, hdir, hnames⟩, hroom⟩ | ⟨e, hrun, -⟩
  · have hall : ∀ l ∈ none, ((encounters disk (disk.sortedFiles dir names)).flatMap
        Encounter.block).length ≤ l := nofun
    rw [(run_of_fits hdir hnames.files hall).2] at hroom
    obtain ⟨hrun, htaken⟩ := run_of_fits hdir hnames.files hroom
    have hevents : ∀ (scope : Log.Scope) (said : List Log.Signal) (e : Log.Event),
        Log.events (.opened scope :: (said ++ [.event e, .closed])) = Log.events said ++ [e] :=
      fun scope said e => Log.events_append said _
    obtain rfl : Summary.countAll {} (encounters disk (disk.sortedFiles dir names)) = summary := by
      rw [hrun] at h
      exact Except.ok.inj h
    refine ⟨dir, names, _, hdir, hnames, hnames.files, rfl, htaken, ?_⟩
    rw [hrun]
    dsimp only
    rw [hevents, events_flatMap_signals, story]
  · rw [hrun] at h
    cases h

end

namespace Cli

/-- A program that ends with status 0 has made a pass that ended well. -/
theorem exists_run_of_outcome {w : World} (h : (outcome w).1 = 0) :
    ∃ summary, (run World.host w).1 = .ok summary := by
  cases hrun : (run World.host w).1 with
  | ok summary => exact ⟨summary, rfl⟩
  | error e =>
    rw [outcome_of_error hrun] at h
    cases h

/-- **The log of a session tells what its pass did.** Let a session that makes a pass over the disk
    end with status 0. For each file, as it is met, there are events for the tags of its text and one
    for what became of it; then comes one for the whole. They agree with the report and with the
    summary. Each session that makes this pass, and whose log has no events of scopes, shows of them
    what its level admits, in order: at level trace all of them. -/
theorem session_story {arguments : List String} {options : Options} {env : Log.Environment}
    {marks : Log.Marks} {disk : Disk} {limit : Option Nat}
    (hparse : parse arguments = .ok (.pass options))
    (hstatus : (Session.of arguments env marks (.start disk limit)).status = 0) :
    ∃ w dir names paths visits summary told, w = World.start disk limit ∧
      disk.workingDirectory = .ok dir ∧ disk.Lists dir names ∧
      (listFiles World.host dir w).1 = .ok paths ∧ visits = encounters disk paths ∧
      (run World.host w).1 = .ok summary ∧
      (∀ n v, visits[n]? = some v → ∃ before,
        before = (visitAll World.host {} (paths.take n) (World.start disk none)).2 ∧
        paths[n]? = some v.path ∧ v.text = (readText World.host v.path before).1 ∧
        (visitFile World.host v.path before).1 = .ok v.visit) ∧
      (∀ v ∈ visits, ∀ e, v.text = .error e → v.applied = [] ∧ v.notes = []) ∧
      (∀ v ∈ visits, ∀ text, v.text = .ok text → v.applied = (augment text).applied ∧
        v.notes = ((scan text).map (·.tag)).zipIdx.filterMap (fun p =>
          p.1.note? (((scan text).map (·.tag)).take p.2)) ∧
        v.notes.filterMap Note.kept? = ((scan text).map (·.tag)).filter Tag.hasMsgpack ∧
        v.notes.filterMap Note.applied? = v.applied) ∧
      told = visits.flatMap (fun v => v.notes.map noteEvent ++
          [v.failure?.elim (writtenEvent v.applied.length) failedEvent]) ++
        [completeEvent summary] ∧
      Agrees told visits summary ∧
      ∀ arguments options env marks, parse arguments = .ok (.pass options) →
        (logConfig options env).scopeEvents = false →
        ∃ (session : Session) (shown : List Log.Shown),
          session = Session.of arguments env marks (.start disk limit) ∧ session.status = 0 ∧
          shown = Log.shown (logConfig options env) marks [] (run World.host w).2.journal ∧
          session.output = visits.flatMap (fun v => (markerLine v.path ::
            (v.applied.map String.ofList ++ (v.failure?.map Error.message).toList)).flatMap
              lineBytes) ∧
          session.errorLines = shown.map (Log.Shown.line (logConfig options env) marks) ∧
          (∀ x ∈ shown, x.ofScope = false) ∧
          shown.map Log.Shown.event =
            told.filter (fun e => (logConfig options env).level.admits e.severity) ∧
          ((logConfig options env).level = .trace → shown.map Log.Shown.event = told) := by
  rw [Session.of_start hparse] at hstatus
  obtain ⟨summary, hrun⟩ := exists_run_of_outcome hstatus
  obtain ⟨dir, names, paths, hdir, hnames, hfiles, hsummary, hreport, hevents⟩ := run_of_ok hrun
  have hlist : (listFiles World.host dir (World.start disk limit)).1 = .ok paths := by
    rw [listFiles_host]
    exact hfiles
  have htold : story (encounters disk paths) summary =
      (encounters disk paths).flatMap (fun v => v.notes.map noteEvent ++
        [v.failure?.elim (writtenEvent v.applied.length) failedEvent]) ++
          [completeEvent summary] := by
    rw [story]
    congr 1
    refine List.flatMap_congr fun v _ => ?_
    rw [Encounter.events, Encounter.outcome]
    cases v.failure? <;> rfl
  refine ⟨_, dir, names, paths, _, summary, _, rfl, hdir, hnames, hlist, rfl, hrun,
    fun n v hv => ?_, fun v _ e htext => ?_, fun v _ text htext => ?_, htold, ?_,
    fun arguments options env marks hparse hscopes => ?_⟩
  · obtain ⟨before, hbefore, hpath, -, htext, hvisit, -⟩ :=
      visit_of_getElem? (w := World.start disk none) rfl hv
    exact ⟨before, hbefore, hpath, htext, hvisit⟩
  · exact (Encounter.of_text_error htext).2
  · obtain ⟨happlied, hnotes, -⟩ := Encounter.of_text_ok htext
    rw [happlied, hnotes]
    exact ⟨rfl, augment_notes text, augment_notes_kept text, augment_notes_applied text⟩
  · rw [hsummary]
    exact agrees_story _
  · obtain ⟨hnone, hshown⟩ := Log.map_event_shown marks hscopes []
      (run World.host (World.start disk limit)).2.journal
    rw [hevents] at hshown
    refine ⟨_, _, rfl, ?_, rfl, ?_, ?_, hnone, hshown, fun htrace => hshown.trans ?_⟩
    · rw [Session.of_start hparse]
      exact hstatus
    · rw [Session.of_start hparse]
      exact hreport
    · rw [Session.of_start hparse, outcome_of_ok hrun]
      exact Log.render_eq_map_shown _ _ _ _
    · rw [htrace]
      exact List.filter_eq_self.mpr fun e _ => rfl

/-- A disk with a directory, in which the process runs: a file of two tags, and a file that may not
    be read. -/
def storyDisk : Disk where
  nodes := [
    sampleRoot,
    { body := .directory { entries := [(.fileB, 2), (.fileA, 3)], parent := 0 }
      mode := .newDirectory },
    { Inode.newFile .empty with bars := { read := some .denied } },
    .newFile (Text.encode "`json:\"a\"` `msgpack:\"b\"`".toList)]
  here := 1

/-- What a session in this directory tells at level trace: the events of its lines agree with what
    becomes of the two files and with the summary of the pass. -/
theorem session_story_small :
    ∃ (session : Session) (visits : List Encounter) (summary : Summary) (shown : List Log.Shown),
      session = Session.of ["-vvv"] (fun _ => none) ⟨"now", "here", "0s"⟩ (.start storyDisk none) ∧
      session.status = 0 ∧
      visits = encounters storyDisk [.ofText "/w/a.go", .ofText "/w/b.go"] ∧
      (run World.host (World.start storyDisk none)).1 = .ok summary ∧
      session.errorLines = shown.map
        (Log.Shown.line (logConfig ⟨3, false⟩ fun _ => none) ⟨"now", "here", "0s"⟩) ∧
      Agrees (shown.map Log.Shown.event) visits summary ∧
      shown.map (fun x => (x.event.severity, x.event.message)) =
        [(.debug, "applied augmentation"), (.trace, "already has msgpack"),
          (.debug, "file written"), (.warn, "permission denied: /w/b.go"),
          (.info, "run complete")] := by
  have hparse : parse ["-vvv"] = .ok (.pass ⟨3, false⟩) := by decide
  have hstatus : (Session.of ["-vvv"] (fun _ => none) ⟨"now", "here", "0s"⟩
      (.start storyDisk none)).status = 0 := by cbv
  have hdir : storyDisk.workingDirectory = .ok (.ofText "/w") := by cbv
  have hfiles : (listFiles World.host (.ofText "/w") (World.start storyDisk none)).1 =
      .ok [.ofText "/w/a.go", .ofText "/w/b.go"] := by cbv
  obtain ⟨_, dir, _, paths, visits, summary, told, rfl, hdir', -, hlist, hvisits, hrun, -, -, -, -,
    hagrees, hlog⟩ := session_story hparse hstatus
  obtain rfl := Except.ok.inj (hdir.symm.trans hdir')
  obtain rfl := Except.ok.inj (hfiles.symm.trans hlist)
  obtain ⟨session, shown, hsession, hzero, hshown, -, hlines, -, -, htold⟩ :=
    hlog ["-vvv"] ⟨3, false⟩ (fun _ => none) ⟨"now", "here", "0s"⟩ hparse (by decide)
  refine ⟨session, visits, summary, shown, hsession, hzero, hvisits, hrun, hlines, ?_, ?_⟩
  · rw [htold (by decide)]
    exact hagrees
  · rw [hshown]
    cbv

end Cli

end StructTags
