import StructTags.Proofs.Cli.Status

/-!
# Sessions and their logs

Which log is asked for, on the command line or in the environment, shows on standard error and
nowhere else:

* **`session_indifferent`**: two sessions that make a pass over the same disk have the same status,
  output and disk, and so has the program with any other log.
-/

namespace StructTags.Cli

variable {arguments arguments' : List String} {options options' : Options}

/-- **The log does not interfere.** Two sessions with arguments that ask for a pass, in whatever
    environments, have the same status, the same output and the same disk in the end. Whatever is
    configured, the log is written to standard error, and there the two sessions have the lines of
    one journal, each as it was asked for. A log of any kind that takes this journal while the
    program runs changes nothing about status, output and disk. -/
theorem session_indifferent (h : parse arguments = .ok (.pass options))
    (h' : parse arguments' = .ok (.pass options')) (env env' : Log.Environment)
    (marks marks' : Log.Marks) (disk : Disk) (limit : Option Nat) :
    ∃ session session' journal,
      session = Session.of arguments env marks (.start disk limit) ∧
      session' = Session.of arguments' env' marks' (.start disk limit) ∧
      session.status = session'.status ∧ session.output = session'.output ∧
      session.disk = session'.disk ∧
      (∀ config, (Log.Subscriber.of config).writer = .standardError) ∧
      session.errorLines = Log.render (logConfig options env) marks [] journal ∧
      session'.errorLines = Log.render (logConfig options' env') marks' [] journal ∧
      ∀ (σ : Type) (log : Log.Signal → σ → σ) (s : σ) (config : Log.Config), ∃ after,
        runProgram ((Machine.system marks).withLog log) config (.start disk limit, s) =
          (session.status, after) ∧
        after.1.output.taken = session.output ∧ after.1.disk = session.disk ∧
        after.2 = journal.foldl (fun s signal => log signal s) s := by
  refine ⟨_, _, (outcome (.start disk limit)).2.journal, rfl, rfl, ?_⟩
  rw [Session.of_start h, Session.of_start h']
  refine ⟨rfl, rfl, rfl, writer_of, rfl, rfl, fun σ log s config => ?_⟩
  obtain ⟨hstatus, hafter, hlog⟩ := runProgram_withLog config marks log s
    (p := .start disk limit) rfl rfl (World.fits_start disk limit)
  obtain ⟨hdisk, hreport⟩ := disk_outcome (.start disk limit)
  exact ⟨_, Prod.ext hstatus rfl, (congrArg Sink.taken hafter.output).trans (congrArg _ hreport),
    hafter.disk.trans hdisk, hlog⟩

/-- Two sessions in the small directory: the first one logs as much as two flags ask for, the second
    one only errors, whatever its environment says. They differ on standard error only. -/
theorem session_indifferent_small :
    ∃ session session',
      session = Session.of ["-vv"] (fun _ => none) ⟨"now", "here", "0s"⟩
        (.start smallDisk none) ∧
      session' = Session.of ["-q"] (fun name => if name = "RUST_LOG" then some "trace" else none)
        ⟨"now", "here", "0s"⟩ (.start smallDisk none) ∧
      session.status = session'.status ∧ session.output = session'.output ∧
      session.disk = session'.disk ∧ session.errorLines.length = 3 ∧
      session'.errorLines = [] := by
  have hverbose : parse ["-vv"] = .ok (.pass ⟨2, false⟩) := by decide
  have hquiet : parse ["-q"] = .ok (.pass ⟨0, true⟩) := by decide
  obtain ⟨session, session', -, hsession, hsession', hstatus, houtput, hdisk, -⟩ :=
    session_indifferent hverbose hquiet (fun _ => none)
      (fun name => if name = "RUST_LOG" then some "trace" else none) ⟨"now", "here", "0s"⟩
      ⟨"now", "here", "0s"⟩ smallDisk none
  refine ⟨session, session', hsession, hsession', hstatus, houtput, hdisk, ?_, ?_⟩
  · rw [hsession]
    cbv
  · rw [hsession']
    cbv

end StructTags.Cli
