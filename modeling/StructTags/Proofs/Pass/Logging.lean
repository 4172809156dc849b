import StructTags.Proofs.Log.Shown
import StructTags.Proofs.Pass.Course

/-!
# A pass and its log

A pass logs while it reads, writes and reports, and nothing of what it logs comes back to it. So
with services that are those of a world in all but the log it goes the way it goes in the world. This
file says so for each part of a pass and so for the whole:

* `Provides`, `Serves`: services that, from states that correspond, do what those of a world do,
  without the log and with it;
* `Parallel`: work that comes to the same in a world and with other services, and logs a nested
  journal without errors;
* `Parallel.pure`, `Parallel.bind`, `Parallel.within`: how such work is put together;
* **`parallel_run`**: a pass is put together so.
-/

namespace StructTags

open Pass

variable {τ α β : Type}

/-! ## 1. Corresponding services -/

/-- A service that does what one of a world does, which logs nothing: where the states correspond,
    so do the results, and the states afterwards. -/
def Alike (R : World → τ → Prop) (x : StateM World α) (y : StateM τ α) : Prop :=
  ∀ w t, R w t → (y t).1 = (x w).1 ∧ R (x w).2 (y t).2 ∧ (x w).2.journal = w.journal

/-- Services that do what those of a world do, as far as a pass uses them: it prints whole lines.
    Nothing is said about the log. -/
structure Provides (R : World → τ → Prop) (host : Host (StateM τ)) : Prop where
  workingDirectory : Alike R World.host.workingDirectory host.workingDirectory
  entries : ∀ path, Alike R (World.host.entries path) (host.entries path)
  isFile : ∀ path, Alike R (World.host.isFile path) (host.isFile path)
  read : ∀ path, Alike R (World.host.read path) (host.read path)
  write : ∀ path content, Alike R (World.host.write path content) (host.write path content)
  print : ∀ line, Alike R (World.host.print (line ++ "\n")) (host.print (line ++ "\n"))

/-- Services that do what those of a world do, after which states still correspond when something is
    logged. -/
structure Serves (R : World → τ → Prop) (host : Host (StateM τ)) : Prop extends
    Provides R host where
  log : ∀ signal w t, R w t → R (World.host.log signal w).2 (host.log signal t).2

/-! ## 2. Parallel work -/

/-- Work that comes to the same in a world and with other services. What it logs is nested and has
    no error. -/
def Parallel (R : World → τ → Prop) (x : StateM World α) (y : StateM τ α) : Prop :=
  ∀ w t, R w t → ∃ said, Log.Nested (·.severity ≠ .error) said ∧
    (x w).2.journal = w.journal ++ said ∧ (y t).1 = (x w).1 ∧ R (x w).2 (y t).2

namespace Parallel

variable {R : World → τ → Prop} {host : Host (StateM τ)}

protected theorem pure (a : α) : Parallel R (pure a) (pure a) := by
  intro w t h
  exact ⟨[], .nil, (List.append_nil _).symm, rfl, h⟩

protected theorem bind {x : StateM World α} {y : StateM τ α} {f : α → StateM World β}
    {g : α → StateM τ β} (hx : Parallel R x y) (hf : ∀ a, Parallel R (f a) (g a)) :
    Parallel R (x >>= f) (y >>= g) := by
  intro w t h
  obtain ⟨said, hsaid, hjournal, hresult, hstate⟩ := hx w t h
  obtain ⟨said', hsaid', hjournal', hresult', hstate'⟩ := hf (x w).1 (x w).2 (y t).2 hstate
  rw [bind_state, bind_state, hresult]
  refine ⟨said ++ said', hsaid.append hsaid', ?_, hresult', hstate'⟩
  rw [hjournal', hjournal, List.append_assoc]

/-- A service that logs nothing. -/
theorem of_alike {x : StateM World α} {y : StateM τ α} (h : Alike R x y) : Parallel R x y := by
  intro w t hstate
  obtain ⟨hresult, hstate', hjournal⟩ := h w t hstate
  exact ⟨[], .nil, by rw [hjournal, List.append_nil], hresult, hstate'⟩

/-- Work that only logs an entry. -/
theorem log_of_nested (h : Serves R host) {signal : Log.Signal}
    (hsignal : Log.Nested (·.severity ≠ .error) [signal]) :
    Parallel R (World.host.log signal) (host.log signal) := by
  intro w t hstate
  exact ⟨[signal], hsignal, rfl, rfl, h.log signal w t hstate⟩

theorem log_event (h : Serves R host) {e : Log.Event} (he : e.severity ≠ .error) :
    Parallel R (World.host.log (.event e)) (host.log (.event e)) :=
  log_of_nested h (.event he .nil)

/-- Work inside a scope. -/
theorem within (h : Serves R host) {x : StateM World α} {y : StateM τ α} (scope : Log.Scope)
    (hx : Parallel R x y) : Parallel R (World.host.within scope x) (host.within scope y) := by
  intro w t hstate
  obtain ⟨said, hsaid, hjournal, hresult, hstate'⟩ := hx _ _ (h.log (.opened scope) w t hstate)
  refine ⟨.opened scope :: (said ++ [.closed]), .scope hsaid .nil, ?_, hresult,
    h.log .closed _ _ hstate'⟩
  show (x (World.host.log (.opened scope) w).2).2.journal ++ [.closed] = _
  rw [hjournal, List.append_assoc]
  show (w.journal ++ [.opened scope]) ++ (said ++ [.closed]) = _
  rw [List.append_assoc]
  rfl

end Parallel

/-! ## 3. The parts of a pass -/

section

variable {R : World → τ → Prop} {host : Host (StateM τ)}

theorem parallel_readText (h : Serves R host) (path : Path) :
    Parallel R (readText World.host path) (readText host path) := by
  refine (Parallel.of_alike (h.read path)).bind fun content => ?_
  cases content with
  | error fault => exact .pure _
  | ok bytes =>
    dsimp only
    cases Text.decode? bytes with
    | none => exact .pure _
    | some text => exact .pure _

theorem parallel_overwrite (h : Serves R host) (path : Path) (text : List Char) :
    Parallel R (overwrite World.host path text) (overwrite host path text) := by
  refine (Parallel.of_alike (h.write path _)).bind fun result => ?_
  cases result with
  | error fault => exact .pure _
  | ok _ => exact .pure _

theorem parallel_filesAmong (h : Serves R host) (dir : Path)
    (delivered : List (Except Fault Name)) :
    Parallel R (filesAmong World.host dir delivered) (filesAmong host dir delivered) := by
  induction delivered with
  | nil => exact .pure _
  | cons entry rest ih =>
    cases entry with
    | error fault => exact .pure _
    | ok name =>
      refine (Parallel.of_alike (h.isFile _)).bind fun isFile => ih.bind fun result => ?_
      cases result with
      | error e => exact .pure _
      | ok paths => exact .pure _

theorem parallel_listFiles (h : Serves R host) (dir : Path) :
    Parallel R (listFiles World.host dir) (listFiles host dir) := by
  refine (Parallel.of_alike (h.entries dir)).bind fun result => ?_
  cases result with
  | error fault => exact .pure _
  | ok delivered =>
    refine (parallel_filesAmong h dir delivered).bind fun found => ?_
    cases found with
    | error e => exact .pure _
    | ok paths => exact .pure _

theorem parallel_report (h : Serves R host) (line : String) :
    Parallel R (World.host.report line) (host.report line) := by
  refine (Parallel.of_alike (h.print line)).bind fun result => ?_
  cases result with
  | error fault => exact .pure _
  | ok _ => exact .pure _

theorem parallel_reportAll (h : Serves R host) (lines : List String) :
    Parallel R (World.host.reportAll lines) (host.reportAll lines) := by
  induction lines with
  | nil => exact .pure _
  | cons line lines ih =>
    refine (parallel_report h line).bind fun result => ?_
    cases result with
    | error e => exact .pure _
    | ok _ => exact ih

/-- Entries are logged one after the other, if each of them may stand alone. -/
theorem parallel_logAll (h : Serves R host) {signals : List Log.Signal}
    (hsignals : ∀ signal ∈ signals, Log.Nested (·.severity ≠ .error) [signal]) :
    Parallel R (World.host.logAll signals) (host.logAll signals) := by
  induction signals with
  | nil => exact .pure _
  | cons signal signals ih =>
    obtain ⟨hsignal, hrest⟩ := List.forall_mem_cons.mp hsignals
    exact (Parallel.log_of_nested h hsignal).bind fun _ => ih hrest

theorem parallel_giveUp (h : Serves R host) (e : Error) :
    Parallel R (giveUp World.host e) (giveUp host e) := by
  refine (parallel_logAll h ?_).bind fun _ => .pure _
  intro signal hsignal
  rcases List.mem_cons.mp hsignal with rfl | hsignal
  · exact .recorded .nil
  · rw [List.mem_singleton.mp hsignal]
    exact .event nofun .nil

theorem parallel_notes (h : Serves R host) (notes : List Note) :
    Parallel R (World.host.logAll (notes.map fun note => .event (noteEvent note)))
      (host.logAll (notes.map fun note => .event (noteEvent note))) := by
  refine parallel_logAll h fun signal hsignal => ?_
  obtain ⟨note, -, rfl⟩ := List.mem_map.mp hsignal
  refine .event ?_ .nil
  cases note <;> exact nofun

theorem parallel_augmentFile (h : Serves R host) (path : Path) :
    Parallel R (augmentFile World.host path) (augmentFile host path) := by
  refine .within h _ ((parallel_readText h path).bind fun content => ?_)
  cases content with
  | error e => exact parallel_giveUp h e
  | ok text =>
    refine (parallel_notes h _).bind fun _ => (parallel_reportAll h _).bind fun reported => ?_
    cases reported with
    | error e => exact .pure _
    | ok _ =>
      refine (parallel_overwrite h path _).bind fun written => ?_
      cases written with
      | error e => exact parallel_giveUp h e
      | ok _ =>
        refine (Parallel.log_event h ?_).bind fun _ => .pure _
        exact nofun

theorem parallel_visitFile (h : Serves R host) (path : Path) :
    Parallel R (visitFile World.host path) (visitFile host path) := by
  refine (parallel_report h _).bind fun marked => ?_
  cases marked with
  | error e => exact .pure _
  | ok _ =>
    refine (parallel_augmentFile h path).bind fun result => ?_
    cases result with
    | error e => exact .pure _
    | ok visit =>
      cases visit with
      | written applied => exact .pure _
      | failed e =>
        refine (parallel_report h _).bind fun reported => ?_
        cases reported with
        | error e' => exact .pure _
        | ok _ => exact .pure _

theorem parallel_visitAll (h : Serves R host) (summary : Summary) (paths : List Path) :
    Parallel R (visitAll World.host summary paths) (visitAll host summary paths) := by
  induction paths generalizing summary with
  | nil => exact .pure _
  | cons path paths ih =>
    refine (parallel_visitFile h path).bind fun result => ?_
    cases result with
    | error e => exact .pure _
    | ok visit => exact ih _

theorem parallel_runIn (h : Serves R host) (dir : Path) :
    Parallel R (runIn World.host dir) (runIn host dir) := by
  refine .within h _ ((parallel_listFiles h dir).bind fun listed => ?_)
  cases listed with
  | error e => exact .pure _
  | ok paths =>
    refine (parallel_visitAll h {} paths).bind fun result => ?_
    cases result with
    | error e => exact .pure _
    | ok summary =>
      refine (Parallel.log_event h ?_).bind fun _ => .pure _
      exact nofun

/-- **A pass comes to the same with all services that are those of a world**, and what it logs is
    nested and without errors. -/
theorem parallel_run (h : Serves R host) : Parallel R (run World.host) (run host) := by
  refine (Parallel.of_alike h.workingDirectory).bind fun found => ?_
  cases found with
  | error fault => exact .pure _
  | ok dir => exact parallel_runIn h dir

end

/-! ## 4. The journal -/

end StructTags
