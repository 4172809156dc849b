import StructTags.Proofs.Pass.Effect

/-!
# Passes with a limited report

A report that takes so many bytes and no more ends a pass at the first block that does not fit. The
augmentations of a file are reported before it is written, so the end comes between two files: the
file whose block is cut is not written any more.

* **`runIn_limited`**: the report holds as much of the full one as it takes, the pass ends well if
  that is all, and the disk is that of a pass over the files whose blocks are whole;
* `runIn_limited_sample`: a block cut in the middle;
* `runIn_limited_ne`: a directory that cannot be listed ends a pass with another error, and a file
  whose block is cut has changed if a file before it was a link to it.
-/

namespace StructTags

/-- The world with a new report that takes so many bytes and no more. -/
def World.limited (w : World) (limit : Nat) : World := { w with report := { limit := some limit } }

namespace World

variable {w : World} {limit : Nat}

theorem fits_limited : (w.limited limit).report.Fits := fun _ _ => Nat.zero_le _

theorem taken_offer_limited (bytes : List UInt8) :
    ((w.limited limit).report.offer bytes).taken = bytes.take limit := rfl

theorem hasRoom_limited (count : Nat) :
    (w.limited limit).report.hasRoom count = decide (count ≤ limit) := by
  rw [limited, Sink.hasRoom]
  simp

end World

/-! ## 1. The limit and the full report -/

section

variable {w : World} {dir : Path} {paths : List Path} {limit : Nat}

/-- A pass whose full report is within the limit is the full pass. -/
theorem runIn_limited_of_le (hfiles : w.disk.files dir = .ok paths)
    (hle : ((encounters w.disk paths).flatMap Encounter.block).length ≤ limit) :
    (runIn World.host dir (w.limited limit)).1 =
        .ok (Summary.countAll {} (encounters w.disk paths)) ∧
      (runIn World.host dir (w.limited limit)).2.report.taken =
        ((encounters w.disk paths).flatMap Encounter.block).take limit ∧
      (runIn World.host dir (w.limited limit)).2.disk = w.disk.pass (paths.take
        ((blockEnds 0 (encounters w.disk paths)).countP (· ≤ limit))) := by
  have hroom : (w.limited limit).report.hasRoom
      ((encounters w.disk paths).flatMap Encounter.block).length = true := by
    rw [World.hasRoom_limited]
    exact decide_eq_true hle
  rw [runIn_of_room (w := w.limited limit) hfiles World.fits_limited hroom]
  refine ⟨rfl, World.taken_offer_limited _, ?_⟩
  rw [countP_blockEnds_of_le (by rwa [Nat.zero_add]), length_encounters, List.take_length]
  rfl

/-- A pass whose full report is longer than the limit ends with the first block that is cut. -/
theorem runIn_limited_of_lt (hfiles : w.disk.files dir = .ok paths)
    (hlt : limit < ((encounters w.disk paths).flatMap Encounter.block).length) :
    (runIn World.host dir (w.limited limit)).1 = .error reportError ∧
      (runIn World.host dir (w.limited limit)).2.report.taken =
        ((encounters w.disk paths).flatMap Encounter.block).take limit ∧
      (runIn World.host dir (w.limited limit)).2.disk = w.disk.pass (paths.take
        ((blockEnds 0 (encounters w.disk paths)).countP (· ≤ limit))) := by
  have hroom : (w.limited limit).report.hasRoom
      ((encounters w.disk paths).flatMap Encounter.block).length = false := by
    rw [World.hasRoom_limited]
    exact decide_eq_false (Nat.not_le.mpr hlt)
  obtain ⟨_, -, hrun⟩ :=
    runIn_of_full (w := w.limited limit) hfiles rfl World.fits_limited hroom
  rw [hrun]
  exact ⟨rfl, World.taken_offer_limited _, rfl⟩

end

/-! ## 2. The disk in the end -/

/-- **A limited report ends a pass between two files.** In a directory that can be listed, the
    report holds the first bytes of the full one, up to the limit. The pass ends as the unlimited one
    does if the full report is no longer than the limit, and with an error if it is. The disk is that
    of a pass over the first files only, as many as have their blocks within the limit; so what none
    of these files leads to is as it was, and the file of a block that is cut, or of a later one, is as
    it was unless one of the first files is the same, by a link or by another name. A directory that
    cannot be listed ends the pass at once. -/
theorem runIn_limited (w : World) (dir : Path) (limit : Nat) (hreport : w.report = {}) :
    ((∀ names, ¬ w.disk.Lists dir names) → ∃ e, e.isFileSystem = true ∧
      (listFiles World.host dir w).1 = .error e ∧
      (runIn World.host dir (w.limited limit)).1 = .error e ∧
      (runIn World.host dir (w.limited limit)).2.report.taken = [] ∧
      (runIn World.host dir (w.limited limit)).2.disk = w.disk) ∧
    ∀ names, w.disk.Lists dir names →
      ∃ paths full stored,
        (listFiles World.host dir w).1 = .ok paths ∧
        full = (runIn World.host dir w).2.report.taken ∧
        full = (encounters w.disk paths).flatMap Encounter.block ∧
        stored = (blockEnds 0 (encounters w.disk paths)).countP (· ≤ limit) ∧
        (runIn World.host dir (w.limited limit)).2.report.taken = full.take limit ∧
        (full.length ≤ limit → ∃ summary,
          (runIn World.host dir (w.limited limit)).1 = .ok summary ∧
            (runIn World.host dir w).1 = .ok summary) ∧
        (limit < full.length → (runIn World.host dir (w.limited limit)).1 =
          .error (.internal "failed to write report" [Fault.full.message])) ∧
        (runIn World.host dir (w.limited limit)).2.disk =
          (visitAll World.host {} (paths.take stored) w).2.disk ∧
        ∀ id, (∀ path ∈ paths.take stored, ¬ w.disk.LeadsTo path id) →
          (runIn World.host dir (w.limited limit)).2.disk.node id = w.disk.node id := by
  have hlimit : w.report.limit = none := by rw [hreport]
  have hfits := Sink.fits_of_limit_eq_none hlimit
  rw [listFiles_host]
  refine ⟨fun hnone => ?_, fun names hlists => ?_⟩
  · obtain ⟨e, he, hsystem⟩ := Disk.files_of_not_lists hnone
    rw [runIn_of_unlisted (w := w.limited limit) he]
    exact ⟨e, hsystem, he, rfl, rfl, rfl⟩
  · have hfiles := hlists.files
    have hfull := runIn_of_room hfiles hfits (Sink.hasRoom_of_limit_eq_none hlimit _)
    have htaken : (runIn World.host dir w).2.report.taken =
        (encounters w.disk (w.disk.sortedFiles dir names)).flatMap Encounter.block := by
      rw [hfull, hreport]
      rfl
    refine ⟨_, _, _, hfiles, rfl, htaken, rfl, ?_⟩
    rw [htaken, (visitAll_of_unlimited {} _ hlimit).1]
    rcases Nat.lt_or_ge limit ((encounters w.disk (w.disk.sortedFiles dir names)).flatMap
      Encounter.block).length with h | h
    · obtain ⟨hresult, hreport', hdisk⟩ := runIn_limited_of_lt hfiles h
      rw [hdisk]
      exact ⟨hreport', fun hle => absurd h (Nat.not_lt.mpr hle), fun _ => hresult, rfl,
        fun id hnot => Disk.node_pass_of_not_leadsTo hnot⟩
    · obtain ⟨hresult, hreport', hdisk⟩ := runIn_limited_of_le hfiles h
      rw [hdisk]
      exact ⟨hreport', fun _ => ⟨_, hresult, by rw [hfull]⟩,
        fun hlt => absurd h (Nat.not_le.mpr hlt), rfl,
        fun id hnot => Disk.node_pass_of_not_leadsTo hnot⟩

/-- In the sample directory a report of forty bytes ends inside the second block. Only the first
    file is visited; the third one, which this one does not lead to, stays as it is. -/
theorem runIn_limited_sample :
    sampleDisk.Lists (.ofText ".") [.fileC, .fileD, .fileB, .fileA] ∧
      (runIn World.host (.ofText ".") (World.limited { disk := sampleDisk } 40)).1 =
        .error (.internal "failed to write report" [Fault.full.message]) ∧
      (runIn World.host (.ofText ".") (World.limited { disk := sampleDisk } 40)).2.report.taken =
        Text.bytesOf "--> ./a.go\njson:\"a\" msgpack:\"a\"\n--> ./b." ∧
      (runIn World.host (.ofText ".") (World.limited { disk := sampleDisk } 40)).2.disk.node 2 =
        sampleDisk.node 2 := by
  obtain ⟨paths, full, stored, hpaths, -, hfull, hstored, htaken, -, hresult, -, hkept⟩ :=
    (runIn_limited { disk := sampleDisk } (.ofText ".") 40 rfl).2 _ lists_sampleDisk
  obtain rfl := Except.ok.inj (hpaths.symm.trans listFiles_sampleDisk)
  obtain ⟨hreport, hends⟩ := report_sampleDisk
  have hone : stored = 1 := by
    rw [hstored, hends]
    rfl
  rw [hreport] at hfull
  refine ⟨lists_sampleDisk, hresult (by rw [hfull]; decide +kernel), ?_, hkept 2 ?_⟩
  · rw [htaken, hfull]
    decide
  · intro path hpath h
    rw [hone] at hpath
    cases List.mem_singleton.mp hpath
    exact absurd (h.unique leadsTo_sampleDisk.1) (by decide)

/-- A disk whose only directory may be searched and not listed. -/
def lockedDisk : Disk where
  nodes := [{ Inode.newDirectory 0 with bars := { read := some .denied } }]

theorem files_lockedDisk :
    lockedDisk.files (.ofText ".") = .error (listError (.ofText ".") .denied) := by
  cbv

/-- Where a directory cannot be listed, even a report without room for one byte is long enough for
    the full one, and yet the pass ends with an error. In the sample directory the block of the
    second file is cut, and yet this file has changed, as the first path leads to it as well. -/
theorem runIn_limited_ne :
    ((runIn World.host (.ofText ".") { disk := lockedDisk }).2.report.taken = [] ∧
        (runIn World.host (.ofText ".") (World.limited { disk := lockedDisk } 0)).1 =
          .error (listError (.ofText ".") .denied)) ∧
      samplePaths[1]? = some (.ofText "./b.go") ∧
        (blockEnds 0 (encounters sampleDisk samplePaths)).countP (· ≤ 40) = 1 ∧
        sampleDisk.LeadsTo (.ofText "./b.go") 3 ∧
        ((runIn World.host (.ofText ".") (World.limited { disk := sampleDisk } 40)).2.disk.node
            3).body ≠
          (sampleDisk.node 3).body := by
  obtain ⟨-, hends⟩ := report_sampleDisk
  have hone : (blockEnds 0 (encounters sampleDisk samplePaths)).countP (· ≤ 40) = 1 := by
    rw [hends]
    rfl
  refine ⟨⟨?_, ?_⟩, rfl, hone, leadsTo_sampleDisk.2.1, ?_⟩
  · rw [runIn_of_unlisted (w := { disk := lockedDisk }) files_lockedDisk]
  · rw [runIn_of_unlisted (w := World.limited { disk := lockedDisk } 0) files_lockedDisk]
  · have hlt : 40 < ((encounters sampleDisk samplePaths).flatMap Encounter.block).length := by
      have hmem : 64 ∈ blockEnds 0 (encounters sampleDisk samplePaths) := by
        rw [hends]
        decide
      have := (le_of_mem_blockEnds hmem).2
      omega
    obtain ⟨-, -, hdisk⟩ := runIn_limited_of_lt (w := { disk := sampleDisk }) files_sampleDisk hlt
    have htext : ((sampleDisk.pass (samplePaths.take 1)).node 3).body =
        .file (Text.encode "`json:\"a\" msgpack:\"a\" `json:\"b\"`".toList) := by cbv
    rw [hdisk, hone, htext]
    intro h
    exact absurd (Text.encode_inj.mp (Body.file.inj h)) (by decide)

end StructTags
