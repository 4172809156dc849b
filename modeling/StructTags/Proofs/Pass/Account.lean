import StructTags.Proofs.Augment.Reported
import StructTags.Proofs.Pass.Effect

/-!
# What a pass says about itself

A pass gives account of itself in two ways: it writes a report, file by file, and it ends with a
summary. This file says what both are for a report without a limit, and how they fit together:

* `Summary.countAll_eq`: the counts, from what became of the files;
* `Encounter.content?_after_ne_iff`: a file has changed exactly if it is stored and something was
  applied;
* `line_of_mem_augment_applied`: an augmentation is one line, and no marker;
* **`runIn_report`**: the report, and what the counts of the summary mean;
* **`runIn_announced`**: the augmentations in the report are those of the summary, and those of the
  files that could be read and not written.
-/

namespace StructTags

/-! ## 1. Counts -/

namespace Summary

/-- The counts after the visits of some files. -/
theorem countAll_eq (s : Summary) (visits : List Encounter) :
    s.countAll visits =
      { scanned := s.scanned + visits.length
        changed := s.changed + visits.countP fun v => v.failure? = none ∧ v.applied ≠ []
        augmented := s.augmented +
          ((visits.filter (·.failure?.isNone)).flatMap Encounter.applied).length
        failed := s.failed + visits.countP (·.failure?.isSome) } := by
  induction visits generalizing s with
  | nil => rfl
  | cons v vs ih =>
    rw [countAll, List.foldl_cons, ← countAll, ih, Encounter.visit]
    cases h : v.failure? with
    | none =>
      cases happlied : v.applied with
      | nil => simp [count, h, happlied]; omega
      | cons x xs => simp [count, h, happlied]; omega
    | some e => simp [count, h]; omega

theorem countAll_empty (visits : List Encounter) :
    Summary.countAll {} visits =
      { scanned := visits.length
        changed := visits.countP fun v => v.failure? = none ∧ v.applied ≠ []
        augmented := ((visits.filter (·.failure?.isNone)).flatMap Encounter.applied).length
        failed := visits.countP (·.failure?.isSome) } := by
  simp only [countAll_eq, Nat.zero_add]

/-- What holds of the counts of a pass at any time. -/
def Sound (s : Summary) : Prop := s.changed + s.failed ≤ s.scanned ∧ s.changed ≤ s.augmented

theorem Sound.count {s : Summary} (h : s.Sound) (visit : Visit) : (s.count visit).Sound := by
  obtain ⟨hscanned, haugmented⟩ := h
  cases visit with
  | failed e => exact ⟨by simp only [Summary.count]; omega, haugmented⟩
  | written applied =>
    simp only [Sound, Summary.count]
    split
    · omega
    · omega

theorem Sound.countAll {s : Summary} (h : s.Sound) (visits : List Encounter) :
    (s.countAll visits).Sound := by
  induction visits generalizing s with
  | nil => exact h
  | cons v vs ih => exact ih (h.count v.visit)

end Summary

/-! ## 2. Files that change -/

/-- The content of the file that a path leads to. -/
def Disk.content? (disk : Disk) (path : Path) : Option ByteArray :=
  match disk.find path with
  | .error _ => none
  | .ok id =>
    match (disk.node id).body with
    | .file content => some content
    | _ => none

theorem Disk.content?_of_leadsTo {disk : Disk} {path : Path} {id : NodeId} {content : ByteArray}
    (h : disk.LeadsTo path id) (hbody : (disk.node id).body = .file content) :
    disk.content? path = some content := by
  rw [LeadsTo] at h
  rw [content?, h]
  dsimp only
  rw [hbody]

namespace Encounter

variable {v : Encounter}

/-- **A file has changed exactly if it is stored and something was applied.** -/
theorem content?_after_ne_iff (hfile : v.disk.isFile v.path = true) :
    v.after.content? v.path ≠ v.disk.content? v.path ↔ v.failure? = none ∧ v.applied ≠ [] := by
  cases hstored : v.stored with
  | error e =>
    obtain ⟨hfailure, hafter, -⟩ := of_stored_error hstored
    simp [hfailure, hafter]
  | ok disk =>
    obtain ⟨hfailure, hafter, -⟩ := of_stored_ok hstored
    obtain ⟨id, content, text, node, hpath, hread, htext, hok, hwrite, hput⟩ :=
      exists_of_stored hstored
    obtain ⟨id', hpath', hnode⟩ := Disk.isFile_eq_true_iff.mp hfile
    obtain rfl := hpath.unique hpath'
    obtain ⟨before, hbody⟩ := Inode.exists_of_isFile hnode
    obtain rfl : before = content := Inode.content_of_read hbody hread
    have hsame : v.after.LeadsTo v.path id :=
      (Disk.leadsTo_congr (Disk.outline_congr v.emptied_after) _ _).mpr hpath
    have hnew : (v.after.node id).body = .file (Text.encode (augment text).text) := by
      rw [hafter, hput, Disk.node_setNode (Disk.lt_length_of_read hread), if_pos rfl]
      exact Inode.body_of_write hbody hwrite
    rw [Disk.content?_of_leadsTo hsame hnew, Disk.content?_of_leadsTo hpath hbody,
      ← Text.encode_of_decode? htext, (of_text_ok hok).1, ne_eq, Option.some.injEq,
      Text.encode_inj, augment_text_eq_self_iff, ne_eq, augment_applied_eq_nil_iff]
    exact ⟨fun h => ⟨hfailure, h⟩, And.right⟩

/-- The paths of files lead to files also when it is their turn. -/
theorem isFile_of_mem_encounters {disk : Disk} {paths : List Path}
    (hfiles : ∀ path ∈ paths, disk.isFile path = true) (h : v ∈ encounters disk paths) :
    v.disk.isFile v.path = true := by
  obtain ⟨n, hn⟩ := List.mem_iff_getElem?.mp h
  rw [getElem?_encounters, Option.map_eq_some_iff] at hn
  obtain ⟨path, hpath, rfl⟩ := hn
  rw [Disk.isFile_congr (Disk.outline_congr (disk.emptied_pass _))]
  exact hfiles path (List.mem_of_getElem? hpath)

/-- A file fails because it is not read, and then nothing is applied, or because it is not
    written. -/
theorem failure_cases {e : Error} (h : v.failure? = some e) :
    (v.text = .error e ∧ v.applied = []) ∨
      ∃ text fault, v.text = .ok text ∧ v.applied = (augment text).applied ∧
        e = writeError v.path fault := by
  cases htext : v.text with
  | error e' =>
    obtain ⟨hstored, happlied, -⟩ := of_text_error htext
    rw [(of_stored_error hstored).1] at h
    exact .inl ⟨congrArg Except.error (Option.some.inj h), happlied⟩
  | ok text =>
    obtain ⟨happlied, -, hstored⟩ := of_text_ok htext
    cases hwrite : v.disk.write v.path (Text.encode (augment text).text) with
    | ok disk =>
      rw [hwrite] at hstored
      rw [(of_stored_ok hstored).1] at h
      cases h
    | error fault =>
      rw [hwrite] at hstored
      rw [(of_stored_error hstored).1] at h
      exact .inr ⟨text, fault, rfl, happlied, (Option.some.inj h).symm⟩

end Encounter

/-! ## 3. Lines -/

/-- **An augmentation is one line, and no marker**: its only blank is a space, and it begins with
    the name of its scheme. -/
theorem line_of_mem_augment_applied {s x : List Char} (hx : x ∈ (augment s).applied) :
    (∀ c ∈ x, Text.isBlank c = true → c = ' ') ∧ ¬ "--> ".toList <+: x := by
  obtain ⟨g, hg, h, rfl⟩ := mem_augment_applied_iff.mp hx
  have hsolid : ∀ scheme, Text.Solid (Pair.mk scheme g.tag.first.value).raw := fun _ =>
    Pair.solid_raw (valid_of_mem_scan hg).1.2
  rw [Tag.augmented_eq h, augmentationOf]
  refine ⟨fun c hc hblank => ?_, ?_⟩
  · rcases List.mem_append.mp hc with hc | hc
    · rcases List.mem_append.mp hc with hc | hc
      · rw [hsolid _ c hc] at hblank
        cases hblank
      · exact List.mem_singleton.mp hc
    · rw [hsolid _ c hc] at hblank
      cases hblank
  · rintro ⟨rest, hrest⟩
    have hhead := congrArg List.head? hrest
    simp [Pair.raw, Scheme.lead] at hhead

theorem Encounter.line_of_mem_applied {v : Encounter} {x : List Char} (hx : x ∈ v.applied) :
    (∀ c ∈ x, Text.isBlank c = true → c = ' ') ∧ ¬ "--> ".toList <+: x := by
  cases htext : v.text with
  | error e =>
    rw [(of_text_error htext).2.1] at hx
    cases hx
  | ok text =>
    rw [(of_text_ok htext).1] at hx
    exact line_of_mem_augment_applied hx

/-! ## 4. The report and the summary -/

section

variable {w w' : World} {dir : Path} {summary : Summary} {paths : List Path}

/-- A file is met after the visits of the files before it, and its own visit is the next one. -/
theorem visit_of_getElem? {v : Encounter} {n : Nat} (hlimit : w.report.limit = none)
    (hv : (encounters w.disk paths)[n]? = some v) :
    ∃ before, before = (visitAll World.host {} (paths.take n) w).2 ∧ paths[n]? = some v.path ∧
      v.disk = before.disk ∧ v.text = (readText World.host v.path before).1 ∧
      (visitFile World.host v.path before).1 = .ok v.visit ∧
      v.after = (visitFile World.host v.path before).2.disk := by
  rw [getElem?_encounters, Option.map_eq_some_iff] at hv
  obtain ⟨path, hpath, rfl⟩ := hv
  obtain ⟨hdisk, hlimit'⟩ := visitAll_of_unlimited {} (paths.take n) hlimit
  refine ⟨_, rfl, hpath, hdisk.symm, ?_⟩
  rw [readText_host, visitFile_of_room _ _ (Sink.fits_of_limit_eq_none hlimit')
    (Sink.hasRoom_of_limit_eq_none hlimit' _), World.meet, hdisk]
  exact ⟨rfl, rfl, rfl⟩

/-- A pass that ends well has visited all files of its directory. -/
theorem exists_paths_of_runIn (hlimit : w.report.limit = none)
    (hrun : runIn World.host dir w = (.ok summary, w')) :
    ∃ paths, (listFiles World.host dir w).1 = .ok paths ∧
      summary = Summary.countAll {} (encounters w.disk paths) ∧
      w'.report.taken =
        w.report.taken ++ (encounters w.disk paths).flatMap Encounter.block := by
  rw [listFiles_host]
  cases hfiles : w.disk.files dir with
  | error e =>
    rw [runIn_of_unlisted hfiles] at hrun
    cases hrun
  | ok paths =>
    rw [runIn_of_room hfiles (Sink.fits_of_limit_eq_none hlimit)
      (Sink.hasRoom_of_limit_eq_none hlimit _)] at hrun
    cases hrun
    exact ⟨paths, rfl, rfl, Sink.offer_of_limit_eq_none hlimit _⟩

end

/-- The sample directory is visited with two augmentations and one failure. -/
theorem runIn_sampleDisk :
    (runIn World.host (.ofText ".") { disk := sampleDisk }).1 =
        .ok { scanned := 4, changed := 2, augmented := 2, failed := 1 } ∧
      (runIn World.host (.ofText ".") { disk := sampleDisk }).2.report.taken =
        (encounters sampleDisk samplePaths).flatMap Encounter.block := by
  obtain ⟨a, b, c, d, hall, ⟨happlieda, hfailurea, -⟩, ⟨happliedb, hfailureb, -⟩,
    ⟨happliedc, hfailurec, -⟩, happliedd, hfailured, -⟩ := exists_encounters_sampleDisk
  have hcounts : Summary.countAll {} (encounters sampleDisk samplePaths) =
      { scanned := 4, changed := 2, augmented := 2, failed := 1 } := by
    rw [Summary.countAll_empty, hall]
    simp [happlieda, hfailurea, happliedb, hfailureb, hfailurec, happliedd, hfailured]
  rw [runIn_of_room (w := { disk := sampleDisk }) files_sampleDisk (Sink.fits_of_limit_eq_none rfl)
    (Sink.hasRoom_of_limit_eq_none rfl _), hcounts]
  exact ⟨rfl, rfl⟩

/-- **What a pass says.** The report has for each file, as it is met, its marker, then the
    augmentations for the text that is read, then the message if it could not be read or written;
    an augmentation is one line and no marker. The summary counts the files, those that failed,
    the augmentations for those that did not, and those that have another content after their
    visit. -/
theorem runIn_report (w w' : World) (dir : Path) (summary : Summary)
    (hlimit : w.report.limit = none) (hrun : runIn World.host dir w = (.ok summary, w')) :
    ∃ paths visits, (listFiles World.host dir w).1 = .ok paths ∧
      visits = encounters w.disk paths ∧
      (∀ n v, visits[n]? = some v →
        ∃ before, before = (visitAll World.host {} (paths.take n) w).2 ∧ paths[n]? = some v.path ∧
          v.disk = before.disk ∧ v.text = (readText World.host v.path before).1 ∧
          (visitFile World.host v.path before).1 = .ok v.visit ∧
          v.after = (visitFile World.host v.path before).2.disk) ∧
      w'.report.taken = w.report.taken ++ visits.flatMap (fun v =>
        (markerLine v.path :: (v.applied.map String.ofList ++
          (v.failure?.map Error.message).toList)).flatMap lineBytes) ∧
      (∀ v ∈ visits, ∀ x ∈ v.applied,
        '\n' ∉ x ∧ (∀ c ∈ x, Text.isBlank c = true → c = ' ') ∧ ¬ "--> ".toList <+: x) ∧
      summary.scanned = paths.length ∧
      summary.failed = visits.countP (·.failure?.isSome) ∧
      summary.augmented =
        ((visits.filter (·.failure?.isNone)).flatMap Encounter.applied).length ∧
      summary.changed =
        visits.countP (fun v => v.after.content? v.path ≠ v.disk.content? v.path) ∧
      summary.changed + summary.failed ≤ summary.scanned ∧ summary.changed ≤ summary.augmented := by
  obtain ⟨paths, hlisted, rfl, hreport⟩ := exists_paths_of_runIn hlimit hrun
  have hsound : Summary.Sound {} := ⟨Nat.le_refl 0, Nat.le_refl 0⟩
  obtain ⟨hscanned, haugmented⟩ := hsound.countAll (encounters w.disk paths)
  refine ⟨paths, _, hlisted, rfl, fun n v hv => visit_of_getElem? hlimit hv, hreport, ?_, ?_, ?_,
    ?_, ?_, hscanned, haugmented⟩
  · intro v _ x hx
    obtain ⟨hblank, hmarker⟩ := v.line_of_mem_applied hx
    exact ⟨fun hmem => absurd (hblank _ hmem rfl) (by decide), hblank, hmarker⟩
  · rw [Summary.countAll_empty, length_encounters]
  · rw [Summary.countAll_empty]
  · rw [Summary.countAll_empty]
  · rw [Summary.countAll_empty]
    refine List.countP_congr fun v hv => ?_
    rw [listFiles_host] at hlisted
    have hfile := Encounter.isFile_of_mem_encounters (Disk.isFile_of_files hlisted) hv
    simp only [decide_eq_true_eq, Encounter.content?_after_ne_iff hfile]

/-- The report on the sample directory, where the third file may not be written, and the files that
    have changed. -/
theorem runIn_report_sample :
    (runIn World.host (.ofText ".") { disk := sampleDisk }).1 =
        .ok { scanned := 4, changed := 2, augmented := 2, failed := 1 } ∧
      (runIn World.host (.ofText ".") { disk := sampleDisk }).2.report.taken =
        Text.bytesOf ("--> ./a.go\njson:\"a\" msgpack:\"a\"\n--> ./b.go\njson:\"b\" msgpack:\"b\"\n" ++
          "--> ./c.go\njson:\"c\" msgpack:\"c\"\npermission denied: ./c.go\n--> ./d.go\n") ∧
      (encounters sampleDisk samplePaths).countP
        (fun v => v.after.content? v.path ≠ v.disk.content? v.path) = 2 := by
  obtain ⟨paths, visits, hlisted, rfl, -, htaken, -, -, -, -, hchanged, -⟩ :=
    runIn_report { disk := sampleDisk } (runIn World.host (.ofText ".") { disk := sampleDisk }).2
      (.ofText ".") { scanned := 4, changed := 2, augmented := 2, failed := 1 } rfl
      (Prod.ext runIn_sampleDisk.1 rfl)
  cases hlisted.symm.trans listFiles_sampleDisk
  exact ⟨runIn_sampleDisk.1, htaken.trans report_sampleDisk.1, hchanged.symm⟩

/-! ## 5. What is announced -/

/-- What is applied is applied to files that are stored, or to files that fail. -/
theorem length_applied (visits : List Encounter) :
    (visits.flatMap Encounter.applied).length =
      ((visits.filter (·.failure?.isNone)).flatMap Encounter.applied).length +
        ((visits.filter (·.failure?.isSome)).flatMap Encounter.applied).length := by
  induction visits with
  | nil => rfl
  | cons v vs ih =>
    rw [List.flatMap_cons, List.length_append, ih]
    cases h : v.failure? with
    | none => simp [h]; omega
    | some e => simp [h]; omega

/-- **What is announced and not counted.** The augmentations in the report are those that the
    summary counts, and those for files that could be read and not written: they are reported
    before the file is written. So all of them are counted exactly if to no file that failed there
    was anything to apply. For a file that could not be read none is reported. -/
theorem runIn_announced (w w' : World) (dir : Path) (summary : Summary)
    (hlimit : w.report.limit = none) (hrun : runIn World.host dir w = (.ok summary, w')) :
    ∃ paths visits, (listFiles World.host dir w).1 = .ok paths ∧
      visits = encounters w.disk paths ∧
      w'.report.taken = w.report.taken ++ visits.flatMap (fun v =>
        (markerLine v.path :: (v.applied.map String.ofList ++
          (v.failure?.map Error.message).toList)).flatMap lineBytes) ∧
      (visits.flatMap Encounter.applied).length = summary.augmented +
        ((visits.filter (·.failure?.isSome)).flatMap Encounter.applied).length ∧
      ((visits.flatMap Encounter.applied).length = summary.augmented ↔
        ∀ v ∈ visits, v.failure?.isSome → v.applied = []) ∧
      ∀ v ∈ visits, ∀ e, v.failure? = some e →
        (v.text = .error e ∧ v.applied = []) ∨
          ∃ text fault, v.text = .ok text ∧ v.applied = (augment text).applied ∧
            e = writeError v.path fault := by
  obtain ⟨paths, hlisted, rfl, hreport⟩ := exists_paths_of_runIn hlimit hrun
  have hlength : ((encounters w.disk paths).flatMap Encounter.applied).length =
      (Summary.countAll {} (encounters w.disk paths)).augmented +
        (((encounters w.disk paths).filter (·.failure?.isSome)).flatMap
          Encounter.applied).length := by
    rw [Summary.countAll_empty]
    exact length_applied _
  refine ⟨paths, _, hlisted, rfl, hreport, hlength, ?_, fun v _ e he => Encounter.failure_cases he⟩
  rw [hlength, Nat.add_eq_left, List.length_eq_zero_iff, List.flatMap_eq_nil_iff]
  simp only [List.mem_filter, and_imp]

/-- In the sample directory one of the three augmentations is for the file that is not written. -/
theorem runIn_announced_sample :
    (runIn World.host (.ofText ".") { disk := sampleDisk }).1 =
        .ok { scanned := 4, changed := 2, augmented := 2, failed := 1 } ∧
      ((encounters sampleDisk samplePaths).flatMap Encounter.applied).length = 2 + 1 := by
  obtain ⟨paths, visits, hlisted, rfl, -, hlength, -, -⟩ :=
    runIn_announced { disk := sampleDisk }
      (runIn World.host (.ofText ".") { disk := sampleDisk }).2
      (.ofText ".") { scanned := 4, changed := 2, augmented := 2, failed := 1 } rfl
      (Prod.ext runIn_sampleDisk.1 rfl)
  cases hlisted.symm.trans listFiles_sampleDisk
  obtain ⟨a, b, c, d, hall, ⟨-, hfailurea, -⟩, ⟨-, hfailureb, -⟩, ⟨happliedc, hfailurec, -⟩, -,
    hfailured, -⟩ := exists_encounters_sampleDisk
  refine ⟨runIn_sampleDisk.1, hlength.trans ?_⟩
  simp [hall, hfailurea, hfailureb, happliedc, hfailurec, hfailured]

/-- In the sample directory three augmentations are reported and two counted. The third one is for a
    file that stays as it is. -/
theorem runIn_announced_ne :
    (runIn World.host (.ofText ".") { disk := sampleDisk }).1 =
        .ok { scanned := 4, changed := 2, augmented := 2, failed := 1 } ∧
      (runIn World.host (.ofText ".") { disk := sampleDisk }).2.report.taken =
        Text.bytesOf ("--> ./a.go\njson:\"a\" msgpack:\"a\"\n--> ./b.go\njson:\"b\" msgpack:\"b\"\n" ++
          "--> ./c.go\njson:\"c\" msgpack:\"c\"\npermission denied: ./c.go\n--> ./d.go\n") ∧
      ((encounters sampleDisk samplePaths).flatMap Encounter.applied).length = 3 ∧
      (runIn World.host (.ofText ".") { disk := sampleDisk }).2.disk.node 2 = sampleDisk.node 2 := by
  refine ⟨runIn_sampleDisk.1, runIn_sampleDisk.2.trans report_sampleDisk.1, ?_, ?_⟩
  · obtain ⟨a, b, c, d, hall, ⟨happlieda, -⟩, ⟨happliedb, -⟩, ⟨happliedc, -⟩, happliedd, -⟩ :=
      exists_encounters_sampleDisk
    simp [hall, happlieda, happliedb, happliedc, happliedd]
  · rw [(runIn_of_unlimited (w := { disk := sampleDisk }) files_sampleDisk rfl).2, Disk.node_pass]
    have hbar : (sampleDisk.node 2).bars.write ≠ none := nofun
    exact Function.iterate_fixed (Inode.revised_eq_self rfl (.inr (.inl hbar))) _

end StructTags
