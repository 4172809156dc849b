import StructTags.Proofs.Disk.Reach
import StructTags.Proofs.Pass.Encounter

/-!
# The course of a pass

A pass over many files is one encounter after the other. This file puts the single visits together:

* `encounters`, `Disk.pass`: the files of a pass as they are met, and the disk in the end;
* `blockEnds`: where in the report the blocks of the files end;
* **`visitAll_of_room`**: if the report has room for all blocks, all files are visited;
* **`visitAll_of_full`**: if not, the pass ends with the first block that does not fit, and the disk
  is the one that the files before it have left;
* `runIn_of_room`, `runIn_of_full`, `runIn_of_unlisted`: a pass over a directory is a pass over its
  files in order, if it can be listed.
-/

namespace StructTags

open Pass

/-! ## 1. All files -/

/-- The files of a pass, each as it is met. -/
def encounters (disk : Disk) : List Path → List Encounter
  | [] => []
  | path :: paths => ⟨path, disk⟩ :: encounters (Encounter.after ⟨path, disk⟩) paths

/-- The disk that the visits of some files leave, one after the other. -/
def Disk.pass (disk : Disk) : List Path → Disk
  | [] => disk
  | path :: paths => (Encounter.after ⟨path, disk⟩).pass paths

/-- The offsets in the report at which the blocks of some files end, where the first block begins
    at the given offset. -/
def blockEnds (offset : Nat) : List Encounter → List Nat
  | [] => []
  | v :: vs => (offset + v.block.length) :: blockEnds (offset + v.block.length) vs

/-- The counts after the visits of some files. -/
def Summary.countAll (s : Summary) (visits : List Encounter) : Summary :=
  visits.foldl (fun s v => s.count v.visit) s

theorem map_path_encounters (disk : Disk) (paths : List Path) :
    (encounters disk paths).map Encounter.path = paths := by
  induction paths generalizing disk with
  | nil => rfl
  | cons path paths ih => rw [encounters, List.map_cons, ih]

theorem length_encounters (disk : Disk) (paths : List Path) :
    (encounters disk paths).length = paths.length := by
  rw [← List.length_map (f := Encounter.path), map_path_encounters]

/-- A file is met on the disk that the files before it have left. -/
theorem getElem?_encounters (disk : Disk) (paths : List Path) (n : Nat) :
    (encounters disk paths)[n]? =
      paths[n]?.map fun path => ⟨path, disk.pass (paths.take n)⟩ := by
  induction paths generalizing disk n with
  | nil => rfl
  | cons path paths ih =>
    cases n with
    | zero => rfl
    | succ n => exact ih _ n

/-! ## 2. Blocks that fit -/

theorem le_of_mem_blockEnds {offset stop : Nat} {visits : List Encounter}
    (h : stop ∈ blockEnds offset visits) :
    offset ≤ stop ∧ stop ≤ offset + (visits.flatMap Encounter.block).length := by
  induction visits generalizing offset with
  | nil => cases h
  | cons v vs ih =>
    rw [List.flatMap_cons, List.length_append]
    rcases List.mem_cons.mp h with rfl | h
    · omega
    · have := ih h
      omega

theorem length_blockEnds (offset : Nat) (visits : List Encounter) :
    (blockEnds offset visits).length = visits.length := by
  induction visits generalizing offset with
  | nil => rfl
  | cons v vs ih => rw [blockEnds, List.length_cons, List.length_cons, ih]

/-- If all that is reported fits, so does each block. -/
theorem countP_blockEnds_of_le {offset limit : Nat} {visits : List Encounter}
    (h : offset + (visits.flatMap Encounter.block).length ≤ limit) :
    (blockEnds offset visits).countP (· ≤ limit) = visits.length := by
  rw [← length_blockEnds offset visits, List.countP_eq_length]
  intro stop hstop
  have := le_of_mem_blockEnds hstop
  exact decide_eq_true (by omega)

/-- Behind a block that does not fit no other one fits. -/
theorem countP_blockEnds_of_lt {offset limit : Nat} (h : limit < offset)
    (visits : List Encounter) : (blockEnds offset visits).countP (· ≤ limit) = 0 := by
  rw [List.countP_eq_zero]
  intro stop hstop
  have := le_of_mem_blockEnds hstop
  simp only [decide_eq_true_eq]
  omega

theorem encounters_cons (w : World) (path : Path) (paths : List Path) :
    encounters w.disk (path :: paths) = w.meet path :: encounters (w.meet path).after paths := rfl

theorem pass_cons (w : World) (path : Path) (paths : List Path) :
    w.disk.pass (path :: paths) = (w.meet path).after.pass paths := rfl

/-- **If the report has room for all of it, a pass visits all files.** -/
theorem visitAll_of_room (s : Summary) (paths : List Path) (w : World) (hfits : w.report.Fits)
    (hroom : w.report.hasRoom ((encounters w.disk paths).flatMap Encounter.block).length = true) :
    visitAll World.host s paths w =
      (.ok (s.countAll (encounters w.disk paths)), { w with
        disk := w.disk.pass paths
        report := w.report.offer ((encounters w.disk paths).flatMap Encounter.block)
        journal := w.journal ++ (encounters w.disk paths).flatMap Encounter.signals }) := by
  induction paths generalizing s w with
  | nil =>
    rw [encounters, List.flatMap_nil, List.flatMap_nil, Sink.offer_nil, List.append_nil]
    rfl
  | cons path paths ih =>
    rw [encounters_cons, List.flatMap_cons, Sink.hasRoom_append hfits, Bool.and_eq_true] at hroom
    rw [visitAll, bind_state, visitFile_of_room path w hfits hroom.1, encounters_cons, pass_cons,
      List.flatMap_cons, List.flatMap_cons, ← Sink.offer_offer, ← List.append_assoc]
    exact ih _ _ (hfits.offer _) hroom.2

/-- Without a limit all files are visited, and there is no limit afterwards. -/
theorem visitAll_of_unlimited (s : Summary) (paths : List Path) {w : World}
    (hlimit : w.report.limit = none) :
    (visitAll World.host s paths w).2.disk = w.disk.pass paths ∧
      (visitAll World.host s paths w).2.report.limit = none := by
  rw [visitAll_of_room s paths w (Sink.fits_of_limit_eq_none hlimit)
    (Sink.hasRoom_of_limit_eq_none hlimit _)]
  exact ⟨rfl, (Sink.limit_offer _ _).trans hlimit⟩

/-- **If the report has no room for all of it, a pass ends with the first block that does not fit**,
    and the disk is the one that the files before it have left. -/
theorem visitAll_of_full {limit : Nat} (s : Summary) (paths : List Path) (w : World)
    (hlimit : w.report.limit = some limit) (hfits : w.report.Fits)
    (hroom : w.report.hasRoom ((encounters w.disk paths).flatMap Encounter.block).length = false) :
    ∃ said, said.Sublist ((encounters w.disk paths).flatMap Encounter.signals) ∧
      visitAll World.host s paths w =
        (.error reportError, { w with
          disk := w.disk.pass (paths.take
            ((blockEnds w.report.taken.length (encounters w.disk paths)).countP (· ≤ limit)))
          report := w.report.offer ((encounters w.disk paths).flatMap Encounter.block)
          journal := w.journal ++ said }) := by
  induction paths generalizing s w with
  | nil =>
    rw [encounters, List.flatMap_nil, List.length_nil, Sink.hasRoom_zero hfits] at hroom
    cases hroom
  | cons path paths ih =>
    rw [encounters_cons, List.flatMap_cons] at hroom
    rw [visitAll, bind_state, encounters_cons, blockEnds, List.flatMap_cons, List.flatMap_cons]
    cases hfirst : w.report.hasRoom (w.meet path).block.length with
    | false =>
      obtain ⟨said, hsaid, hvisit⟩ := visitFile_of_full path w hfits hfirst
      have hlt : limit < w.report.taken.length + (w.meet path).block.length := by
        simpa [Sink.hasRoom, hlimit] using hfirst
      refine ⟨said, hsaid.trans (List.sublist_append_left _ _), ?_⟩
      rw [hvisit, Sink.offer_of_full hfirst, List.countP_cons_of_neg (by simpa using hlt),
        countP_blockEnds_of_lt hlt]
      rfl
    | true =>
      have hle : w.report.taken.length + (w.meet path).block.length ≤ limit := by
        simpa [Sink.hasRoom, hlimit] using hfirst
      have hlength : (w.report.offer (w.meet path).block).taken.length =
          w.report.taken.length + (w.meet path).block.length := by
        rw [(Sink.hasRoom_iff hfits _).mp hfirst, List.length_append]
      rw [Sink.hasRoom_append hfits, hfirst, Bool.true_and] at hroom
      obtain ⟨said, hsaid, hrest⟩ := ih (s.count (w.meet path).visit)
        { w with
          disk := (w.meet path).after
          report := w.report.offer (w.meet path).block
          journal := w.journal ++ (w.meet path).signals }
        (by rw [Sink.limit_offer, hlimit]) (hfits.offer _) hroom
      refine ⟨(w.meet path).signals ++ said, hsaid.append_left _, ?_⟩
      rw [visitFile_of_room path w hfits hfirst, List.countP_cons_of_pos (by simpa using hle),
        List.take_succ_cons, pass_cons, ← Sink.offer_offer, ← List.append_assoc, ← hlength]
      exact hrest

/-! ## 4. A directory -/

/-- The paths of the regular files among the entries that a directory delivers, or why one of them
    was not delivered. -/
def Disk.filesAmong (disk : Disk) (dir : Path) :
    List (Except Fault Name) → Except Error (List Path)
  | [] => .ok []
  | .error fault :: _ => .error (entryError dir fault)
  | .ok name :: rest =>
    match disk.filesAmong dir rest with
    | .error e => .error e
    | .ok paths => .ok (if disk.isFile (dir.join name) then dir.join name :: paths else paths)

/-- The paths of the regular files directly inside a directory, or why it cannot be listed. -/
def Disk.files (disk : Disk) (dir : Path) : Except Error (List Path) :=
  match disk.entries dir with
  | .error fault => .error (listError dir fault)
  | .ok delivered =>
    match disk.filesAmong dir delivered with
    | .error e => .error e
    | .ok paths => .ok (paths.mergeSort Path.notAfter)

/-- What is looked at are the entries, one after the other, whatever host delivers them. -/
theorem filesAmong_of_isFile {host : Host (StateM World)} {dir : Path} {w : World}
    (h : ∀ path, host.isFile path w = (w.disk.isFile path, w))
    (delivered : List (Except Fault Name)) :
    filesAmong host dir delivered w = (w.disk.filesAmong dir delivered, w) := by
  induction delivered with
  | nil => rfl
  | cons entry rest ih =>
    cases entry with
    | error fault => rfl
    | ok name =>
      rw [filesAmong, bind_state, h, bind_state, ih, Disk.filesAmong]
      cases w.disk.filesAmong dir rest <;> rfl

theorem listFiles_host (dir : Path) (w : World) :
    listFiles World.host dir w = (w.disk.files dir, w) := by
  have hentries : World.host.entries dir w = (w.disk.entries dir, w) := rfl
  rw [listFiles, bind_state, hentries, Disk.files]
  cases w.disk.entries dir with
  | error fault => rfl
  | ok delivered =>
    dsimp only
    rw [bind_state, filesAmong_of_isFile fun _ => rfl]
    cases w.disk.filesAmong dir delivered <;> rfl

namespace Disk

variable {disk : Disk} {dir : Path}

/-- What is delivered without a fault is sorted out by what it leads to. -/
theorem filesAmong_map_ok (names : List Name) :
    disk.filesAmong dir (names.map .ok) = .ok ((names.map dir.join).filter disk.isFile) := by
  induction names with
  | nil => rfl
  | cons name names ih =>
    rw [List.map_cons, filesAmong, ih, List.map_cons, List.filter_cons]

/-- A fault behind what is delivered is the error of the list. -/
theorem filesAmong_of_fault (names : List Name) (fault : Fault)
    (rest : List (Except Fault Name)) :
    disk.filesAmong dir (names.map .ok ++ .error fault :: rest) =
      .error (entryError dir fault) := by
  induction names with
  | nil => rfl
  | cons name names ih => rw [List.map_cons, List.cons_append, filesAmong, ih]

/-- The paths of the files in a directory with these names, in order. -/
def sortedFiles (disk : Disk) (dir : Path) (names : List Name) : List Path :=
  ((names.map dir.join).filter disk.isFile).mergeSort Path.notAfter

theorem mem_sortedFiles {names : List Name} {path : Path} :
    path ∈ disk.sortedFiles dir names ↔
      (∃ name ∈ names, dir.join name = path) ∧ disk.isFile path = true := by
  rw [sortedFiles, (List.mergeSort_perm _ _).mem_iff, List.mem_filter, List.mem_map]

/-- **A directory that can be listed has the paths of its files listed**, in order. -/
theorem Lists.files {names : List Name} (h : disk.Lists dir names) :
    disk.files dir = .ok (disk.sortedFiles dir names) := by
  rw [Disk.files, h.entries]
  dsimp only
  rw [filesAmong_map_ok]
  rfl

/-- **A directory that cannot be listed gives an error of the file system.** -/
theorem files_of_not_lists (h : ∀ names, ¬ disk.Lists dir names) :
    ∃ e, disk.files dir = .error e ∧ e.isFileSystem = true := by
  rw [files]
  cases hentries : disk.entries dir with
  | error fault => exact ⟨_, rfl, rfl⟩
  | ok delivered =>
    obtain ⟨id, d, hleads, hbody, hbar, rfl⟩ := entries_eq_ok_iff.mp hentries
    cases hfault : d.fault with
    | none => exact absurd ⟨id, d, hleads, hbody, hbar, hfault, rfl⟩ (h d.names)
    | some fault =>
      dsimp only
      rw [Directory.delivered, hfault, Option.toList_some, List.map_singleton, filesAmong_of_fault]
      exact ⟨_, rfl, rfl⟩

theorem files_eq_ok_iff {paths : List Path} :
    disk.files dir = .ok paths ↔
      ∃ names, disk.Lists dir names ∧ disk.sortedFiles dir names = paths := by
  constructor
  · intro h
    by_cases hlists : ∃ names, disk.Lists dir names
    · obtain ⟨names, hnames⟩ := hlists
      exact ⟨names, hnames, Except.ok.inj (hnames.files.symm.trans h)⟩
    · obtain ⟨e, he, -⟩ := files_of_not_lists (not_exists.mp hlists)
      cases he.symm.trans h
  · rintro ⟨names, hnames, rfl⟩
    exact hnames.files

/-- What is listed are files. -/
theorem isFile_of_files {paths : List Path} (h : disk.files dir = .ok paths) :
    ∀ path ∈ paths, disk.isFile path = true := by
  obtain ⟨names, -, rfl⟩ := files_eq_ok_iff.mp h
  exact fun path hpath => (mem_sortedFiles.mp hpath).2

end Disk

section

variable {dir : Path} {w : World}

/-- A directory that cannot be listed ends the pass before anything is reported or changed. -/
theorem runIn_of_unlisted {e : Error} (h : w.disk.files dir = .error e) :
    runIn World.host dir w = (.error e, { w with
      journal := w.journal ++ [.opened (runScope dir), .closed] }) := by
  rw [runIn, within_host, bind_state, listFiles_host]
  dsimp only
  rw [h]
  simp [pure_state]

variable {paths : List Path}

/-- **If the report has room for all of it, a pass over a directory visits all its files.** -/
theorem runIn_of_room (h : w.disk.files dir = .ok paths) (hfits : w.report.Fits)
    (hroom : w.report.hasRoom ((encounters w.disk paths).flatMap Encounter.block).length = true) :
    runIn World.host dir w =
      (.ok (Summary.countAll {} (encounters w.disk paths)), { w with
        disk := w.disk.pass paths
        report := w.report.offer ((encounters w.disk paths).flatMap Encounter.block)
        journal := w.journal ++ (.opened (runScope dir) ::
          ((encounters w.disk paths).flatMap Encounter.signals ++
            [.event (completeEvent (Summary.countAll {} (encounters w.disk paths))), .closed])) }) := by
  have hvisits := visitAll_of_room {} paths
    { w with journal := w.journal ++ [.opened (runScope dir)] } hfits hroom
  rw [runIn, within_host, bind_state, listFiles_host]
  dsimp only
  rw [h]
  dsimp only
  rw [bind_state, hvisits]
  simp [bind_state, pure_state, World.host]

/-- **If the report has no room for all of it, a pass over a directory ends with the first block
    that does not fit.** -/
theorem runIn_of_full {limit : Nat} (h : w.disk.files dir = .ok paths)
    (hlimit : w.report.limit = some limit) (hfits : w.report.Fits)
    (hroom : w.report.hasRoom ((encounters w.disk paths).flatMap Encounter.block).length = false) :
    ∃ said, said.Sublist ((encounters w.disk paths).flatMap Encounter.signals) ∧
      runIn World.host dir w =
        (.error reportError, { w with
          disk := w.disk.pass (paths.take
            ((blockEnds w.report.taken.length (encounters w.disk paths)).countP (· ≤ limit)))
          report := w.report.offer ((encounters w.disk paths).flatMap Encounter.block)
          journal := w.journal ++ (.opened (runScope dir) :: (said ++ [.closed])) }) := by
  obtain ⟨said, hsaid, hvisits⟩ := visitAll_of_full {} paths
    { w with journal := w.journal ++ [.opened (runScope dir)] } hlimit hfits hroom
  refine ⟨said, hsaid, ?_⟩
  rw [runIn, within_host, bind_state, listFiles_host]
  dsimp only
  rw [h]
  dsimp only
  rw [bind_state, hvisits]
  simp [pure_state]

end

end StructTags
