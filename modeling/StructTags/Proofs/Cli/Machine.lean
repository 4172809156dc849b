import StructTags.Cli.Session
import StructTags.Proofs.Log.Shown
import StructTags.Proofs.Pass.Logging

/-!
# The program in a process

A process holds back what it prints until a line ends, and writes its log while the program runs. A
pass prints whole lines, so from one of its steps to the next nothing is held back, and a process
comes to what a world comes to in which the same happens.

* `Mirrors`: a process has the disk and the report of a world, and its log is in a given relation to
  the journal;
* `System.withLog`: a system with a log of any kind in place of its own;
* `outcome`: what becomes of the program in a world;
* **`runProgram_of_serves`**: the program comes to this with all services that are those of a world;
* `serves_system`, `serves_withLog`: the services of a process are, with its own log and with any;
* **`status_eq_one_iff`**: the program ends with status 1 exactly if there is a log already;
* **`Session.of_pass`**: a session with a pass.
-/

namespace StructTags.Cli

/-! ## 1. Lines -/

section

variable (bytes : List UInt8)

theorem wholeLines_append_lineFeed :
    wholeLines (bytes ++ [lineFeed]) = bytes ++ [lineFeed] := by
  simp [wholeLines]

theorem openLine_append_lineFeed : openLine (bytes ++ [lineFeed]) = [] := by
  simp [openLine]

end

theorem bytesOf_line (line : String) :
    Text.bytesOf (line ++ "\n") = Text.bytesOf line ++ [lineFeed] := by
  rw [Text.bytesOf_eq, Text.bytesOf_eq, String.toList_append, List.flatMap_append]
  rfl

namespace Machine

variable {p : Machine}

/-- A line that is printed while nothing is held back goes to standard output as a whole. -/
theorem print_line (hbuffer : p.buffer = []) (line : String) :
    p.print (line ++ "\n") =
      ((p.output.print (line ++ "\n")).1,
        { p with output := (p.output.print (line ++ "\n")).2 }) := by
  simp only [print, Sink.print, hbuffer, List.nil_append, bytesOf_line,
    wholeLines_append_lineFeed, openLine_append_lineFeed]

/-- While nothing is held back there is nothing to hand on. -/
theorem flush_of_nil (hbuffer : p.buffer = []) (hfits : p.output.Fits) :
    p.flush = (.ok (), p) := by
  rw [flush, hbuffer, List.length_nil, Sink.hasRoom_zero hfits, if_pos rfl, Sink.offer_nil,
    ← hbuffer]

/-- Lines that are written to standard error are added there. -/
theorem foldl_writeLine (lines : List String) (p : Machine) :
    lines.foldl (writeLine .standardError) p =
      { p with errorLines := p.errorLines ++ lines } := by
  induction lines generalizing p with
  | nil => rw [List.foldl_nil, List.append_nil]
  | cons line lines ih =>
    rw [List.foldl_cons, ih, writeLine, List.append_assoc]
    rfl

end Machine

/-! ## 2. Processes and worlds -/

/-- What a process keeps of its log: the log itself, the scopes that are open, and the lines on
    standard error. -/
def Machine.kept (p : Machine) : Option Log.Subscriber × List Log.Scope × List String :=
  (p.subscriber, p.scopes, p.errorLines)

/-- A process has the disk and the report of a world and holds nothing back. What it keeps of its
    log is in the given relation to the journal. -/
structure Mirrors
    (K : List Log.Signal → Option Log.Subscriber × List Log.Scope × List String → Prop)
    (w : World) (p : Machine) : Prop where
  disk : p.disk = w.disk
  output : p.output = w.report
  buffer : p.buffer = []
  fits : w.report.Fits
  log : K w.journal p.kept

/-- The log that a process has set up for a configuration, after a journal: the scopes that are open,
    and behind the lines from before those of the journal. -/
def Logs (config : Log.Config) (marks : Log.Marks) (scopes : List Log.Scope)
    (lines : List String) (journal : List Log.Signal)
    (kept : Option Log.Subscriber × List Log.Scope × List String) : Prop :=
  kept = (some (.of config), journal.foldl (Log.afterSignal config) scopes,
    lines ++ Log.render config marks scopes journal)

section

variable {K : List Log.Signal → Option Log.Subscriber × List Log.Scope × List String → Prop}

/-- **The services of a process are those of the world that it mirrors**, all but the log. -/
theorem provides_system (marks : Log.Marks) :
    Provides (Mirrors K) (Machine.system marks).toHost where
  workingDirectory w p h := ⟨congrArg Disk.workingDirectory h.disk, h, rfl⟩
  entries path w p h := ⟨congrArg (Disk.entries · path) h.disk, h, rfl⟩
  isFile path w p h := ⟨congrArg (Disk.isFile · path) h.disk, h, rfl⟩
  read path w p h := ⟨congrArg (Disk.read · path) h.disk, h, rfl⟩
  write path content w p h := by
    simp only [Machine.system, World.host, h.disk]
    cases w.disk.write path content with
    | error fault => exact ⟨rfl, h, rfl⟩
    | ok disk => exact ⟨rfl, ⟨rfl, h.output, h.buffer, h.fits, h.log⟩, rfl⟩
  print line w p h := by
    have hprint : (Machine.system marks).print (line ++ "\n") p = _ :=
      Machine.print_line h.buffer line
    rw [hprint, h.output]
    exact ⟨rfl, ⟨h.disk, rfl, h.buffer, h.fits.offer _, h.log⟩, rfl⟩

theorem Mirrors.flush {w : World} {p : Machine} (h : Mirrors K w p) : p.flush = (.ok (), p) :=
  Machine.flush_of_nil h.buffer (h.output ▸ h.fits)

end

/-- The log that is set up for a configuration has this configuration. -/
theorem config_of (config : Log.Config) : (Log.Subscriber.of config).config = config := by
  unfold Log.Subscriber.of
  split <;> rfl

/-- **Whatever is configured, the log writes to standard error.** -/
theorem writer_of (config : Log.Config) :
    (Log.Subscriber.of config).writer = .standardError := by
  unfold Log.Subscriber.of
  split <;> rfl

/-- **So is its log**, once it is set up: it writes the lines of the journal. -/
theorem serves_system (config : Log.Config) (marks : Log.Marks) (scopes : List Log.Scope)
    (lines : List String) :
    Serves (Mirrors (Logs config marks scopes lines)) (Machine.system marks).toHost where
  toProvides := provides_system marks
  log signal w p h := by
    obtain ⟨disk, output, buffer, subscriber, opened, errorLines⟩ := p
    obtain ⟨hdisk, houtput, hbuffer, hfits, hlog⟩ := h
    obtain ⟨rfl, rfl, rfl⟩ : subscriber = some (.of config) ∧
        opened = w.journal.foldl (Log.afterSignal config) scopes ∧
        errorLines = lines ++ Log.render config marks scopes w.journal := by
      simpa [Logs, Machine.kept] using hlog
    simp only [Machine.system, Machine.log, config_of, writer_of, Machine.foldl_writeLine]
    refine ⟨hdisk, houtput, hbuffer, hfits, ?_⟩
    show Logs config marks scopes lines (w.journal ++ [signal]) _
    rw [Logs, Log.render_append, List.foldl_append, Log.render, Log.render, List.append_nil,
      ← List.append_assoc]
    rfl

/-! ## 3. Any log -/

section

variable {τ σ α : Type}

/-- Work on one part of a state that leaves the other part alone. -/
def beside (σ : Type) (x : StateM τ α) : StateM (τ × σ) α :=
  fun t => ((x t.1).1, (x t.1).2, t.2)

/-- The system with a log of any kind in place of its own. -/
def System.withLog (system : System (StateM τ)) (log : Log.Signal → σ → σ) :
    System (StateM (τ × σ)) where
  workingDirectory := beside σ system.workingDirectory
  entries path := beside σ (system.entries path)
  isFile path := beside σ (system.isFile path)
  read path := beside σ (system.read path)
  write path content := beside σ (system.write path content)
  print text := beside σ (system.print text)
  log signal t := ((), t.1, log signal t.2)
  setUp config := beside σ (system.setUp config)
  flush := beside σ system.flush
  complain line := beside σ (system.complain line)

variable {R : World → τ → Prop}

/-- What is done beside a log does what is done in the world, if it does without the log. -/
theorem alike_beside {x : StateM World α} {y : StateM τ α} (h : Alike R x y)
    (L : List Log.Signal → σ → Prop) :
    Alike (fun w t => R w t.1 ∧ L w.journal t.2) x (beside σ y) := by
  intro w t hstate
  obtain ⟨hresult, hstate', hjournal⟩ := h w t.1 hstate.1
  exact ⟨hresult, ⟨hstate', hjournal ▸ hstate.2⟩, hjournal⟩

theorem provides_withLog {system : System (StateM τ)} (h : Provides R system.toHost)
    (log : Log.Signal → σ → σ) (L : List Log.Signal → σ → Prop) :
    Provides (fun w t => R w t.1 ∧ L w.journal t.2) (system.withLog log).toHost where
  workingDirectory := alike_beside h.workingDirectory L
  entries path := alike_beside (h.entries path) L
  isFile path := alike_beside (h.isFile path) L
  read path := alike_beside (h.read path) L
  write path content := alike_beside (h.write path content) L
  print line := alike_beside (h.print line) L

end

/-- **With a log of any kind the services of a process are those of the world that it mirrors**, and
    the log takes the journal. -/
theorem serves_withLog {σ : Type} (marks : Log.Marks) (log : Log.Signal → σ → σ) (s : σ) :
    Serves (fun w t => Mirrors (fun _ _ => True) w t.1 ∧
        t.2 = w.journal.foldl (fun s signal => log signal s) s)
      ((Machine.system marks).withLog log).toHost where
  toProvides := provides_withLog (provides_system marks) log fun journal s' =>
    s' = journal.foldl (fun s signal => log signal s) s
  log signal w t h := by
    obtain ⟨h, hlog⟩ := h
    refine ⟨⟨h.disk, h.output, h.buffer, h.fits, trivial⟩, ?_⟩
    show log signal t.2 = (w.journal ++ [signal]).foldl _ _
    rw [List.foldl_append, ← hlog]
    rfl

/-! ## 4. The program -/

/-- What becomes of the program in a world, once its log is set up. -/
def outcome (w : World) : Nat × World :=
  match (run World.host w).1 with
  | .ok _ => (0, (run World.host w).2)
  | .error e =>
    ((FatalError.pass e).status,
      (World.host.log (.event (FatalError.pass e).event) (run World.host w).2).2)

theorem outcome_of_ok {w : World} {summary : Summary}
    (h : (run World.host w).1 = .ok summary) : outcome w = (0, (run World.host w).2) := by
  rw [outcome, h]

theorem outcome_of_error {w : World} {e : Error} (h : (run World.host w).1 = .error e) :
    outcome w = (3, { (run World.host w).2 with
      journal := (run World.host w).2.journal ++ [.event (FatalError.pass e).event] }) := by
  rw [outcome, h]
  rfl

/-- What the program adds to a pass is an entry of the journal. -/
theorem disk_outcome (w : World) :
    (outcome w).2.disk = (run World.host w).2.disk ∧
      (outcome w).2.report = (run World.host w).2.report := by
  rw [outcome]
  cases (run World.host w).1 with
  | ok summary => exact ⟨rfl, rfl⟩
  | error e => exact ⟨rfl, rfl⟩

/-- **The program comes to the same with all services that are those of a world**, if nothing is held
    back and the log can be set up. -/
theorem runProgram_of_serves {τ : Type} {R : World → τ → Prop} {system : System (StateM τ)}
    (h : Serves R system.toHost) (hflush : ∀ w t, R w t → system.flush t = (.ok (), t))
    {config : Log.Config} {w : World} {t t' : τ} (hsetUp : system.setUp config t = (.ok (), t'))
    (hstate : R w t') :
    (runProgram system config t).1 = (outcome w).1 ∧
      R (outcome w).2 (runProgram system config t).2 := by
  obtain ⟨-, -, -, hresult, hafter⟩ := parallel_run h w t' hstate
  rw [runProgram, bind_state, hsetUp]
  dsimp only
  rw [bind_state, runPass, bind_state, hresult, outcome]
  cases (run World.host w).1 with
  | ok summary =>
    dsimp only
    rw [bind_state, hflush _ _ hafter]
    exact ⟨rfl, hafter⟩
  | error e => exact ⟨rfl, h.log _ _ _ hafter⟩

/-- The status of the program, once its log is set up. -/
theorem status_outcome (w : World) : (outcome w).1 = 0 ∨ (outcome w).1 = 3 := by
  rw [outcome]
  cases (run World.host w).1 with
  | ok summary => exact .inl rfl
  | error e => exact .inr rfl

/-- The world that a process has before it, with an empty journal. -/
def Machine.world (p : Machine) : World := { disk := p.disk, report := p.output }

section

variable (config : Log.Config) (marks : Log.Marks) {p : Machine}

/-- **In a process without a log, which holds nothing back, the program comes to what the world comes
    to**, and the log has the lines of the journal. -/
theorem runProgram_of_none (hnone : p.subscriber = none) (hbuffer : p.buffer = [])
    (hfits : p.output.Fits) :
    (runProgram (Machine.system marks) config p).1 = (outcome p.world).1 ∧
      Mirrors (Logs config marks p.scopes p.errorLines) (outcome p.world).2
        (runProgram (Machine.system marks) config p).2 := by
  have hsetUp : (Machine.system marks).setUp config p =
      (.ok (), { p with subscriber := some (.of config) }) := by
    simp only [Machine.system, Log.setUp, hnone]
  refine runProgram_of_serves (serves_system config marks p.scopes p.errorLines)
    (fun w p h => h.flush) hsetUp ⟨rfl, rfl, hbuffer, hfits, ?_⟩
  rw [Logs, Machine.world, Log.render, List.append_nil]
  rfl

/-- **In a process with a log the program ends at once**, and tells why on standard error. -/
theorem runProgram_of_some {s : Log.Subscriber} (hsome : p.subscriber = some s) :
    runProgram (Machine.system marks) config p = (1, { p with
      errorLines := p.errorLines ++ ["failed to initialize logging: " ++
        "a global default trace dispatcher has already been set"] }) := by
  have hsetUp : (Machine.system marks).setUp config p =
      (.error ⟨"a global default trace dispatcher has already been set"⟩, p) := by
    simp only [Machine.system, Log.setUp, hsome]
  rw [runProgram, bind_state, hsetUp]
  rfl

/-- **The program ends with status 1 exactly if there is a log already**: what standard output is
    handed in the end is nothing, so this does not fail. -/
theorem status_eq_one_iff (hbuffer : p.buffer = []) (hfits : p.output.Fits) :
    (runProgram (Machine.system marks) config p).1 = 1 ↔ p.subscriber.isSome = true := by
  cases hlog : p.subscriber with
  | some s =>
    rw [runProgram_of_some config marks hlog]
    exact iff_of_true rfl rfl
  | none =>
    rw [(runProgram_of_none config marks hlog hbuffer hfits).1]
    refine iff_of_false ?_ nofun
    rcases status_outcome p.world with h | h
    · rw [h]
      exact nofun
    · rw [h]
      exact nofun

/-- **With a log of any kind the program comes to what the world comes to**, and the log takes the
    journal. -/
theorem runProgram_withLog {σ : Type} (log : Log.Signal → σ → σ) (s : σ)
    (hnone : p.subscriber = none) (hbuffer : p.buffer = []) (hfits : p.output.Fits) :
    (runProgram ((Machine.system marks).withLog log) config (p, s)).1 = (outcome p.world).1 ∧
      Mirrors (fun _ _ => True) (outcome p.world).2
        (runProgram ((Machine.system marks).withLog log) config (p, s)).2.1 ∧
      (runProgram ((Machine.system marks).withLog log) config (p, s)).2.2 =
        (outcome p.world).2.journal.foldl (fun s signal => log signal s) s := by
  have hsetUp : ((Machine.system marks).withLog log).setUp config (p, s) =
      (.ok (), { p with subscriber := some (.of config) }, s) := by
    simp only [System.withLog, beside, Machine.system, Log.setUp, hnone]
  refine runProgram_of_serves (serves_withLog marks log s) (fun w t h => ?_) hsetUp
    ⟨⟨rfl, rfl, hbuffer, hfits, trivial⟩, rfl⟩
  have hflush : (Machine.system marks).flush t.1 = (.ok (), t.1) := h.1.flush
  simp only [System.withLog, beside, hflush]

end

/-! ## 5. Sessions -/

/-- The log that is asked for. -/
def logConfig (options : Options) (env : Log.Environment) : Log.Config :=
  (Log.Config.ofEnvironment env).withVerbosity options.verbose options.quiet

namespace Session

variable {arguments : List String} {options : Options}

/-- **A session with a pass, in a process without a log, shows what the world comes to.** -/
theorem of_pass (h : parse arguments = .ok (.pass options)) (env : Log.Environment)
    (marks : Log.Marks) {p : Machine} (hnone : p.subscriber = none) (hbuffer : p.buffer = [])
    (hfits : p.output.Fits) :
    Session.of arguments env marks p =
      { status := (outcome p.world).1
        output := (outcome p.world).2.report.taken
        errorLines := p.errorLines ++
          Log.render (logConfig options env) marks p.scopes (outcome p.world).2.journal
        disk := (outcome p.world).2.disk } := by
  obtain ⟨hstatus, hafter⟩ := runProgram_of_none (logConfig options env) marks hnone hbuffer hfits
  have herrors : (runProgram (Machine.system marks) (logConfig options env) p).2.errorLines = _ :=
    congrArg (fun kept => kept.2.2) hafter.log
  have hof : Session.of arguments env marks p =
      .left (runProgram (Machine.system marks) (logConfig options env) p).1
        (runProgram (Machine.system marks) (logConfig options env) p).2 := by
    rw [Session.of, Plan.of, h]
    rfl
  rw [hof, left, hafter.flush, hstatus, hafter.output, hafter.disk, herrors]

end Session

end StructTags.Cli
