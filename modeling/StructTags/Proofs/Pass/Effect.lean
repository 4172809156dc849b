import Mathlib
import StructTags.Proofs.Disk.Reach
import StructTags.Proofs.Pass.Course

/-!
# What a pass does to a disk

* `Inode.revised`: what one visit makes of a node;
* `Encounter.stored_of_leadsTo`, `Encounter.exists_of_stored`: a visit stores the augmented text in
  the file that its path leads to, if it may read and write it and it holds text, and only then;
* `node_after`, `node_pass`: so a visit revises one node, and a pass revises each node as often as
  its paths lead there;
* **`runIn_files`**: all that a pass over a directory changes.
-/

namespace StructTags

/-! ## 1. Revised nodes -/

namespace Inode

/-- What a visit makes of a node, by a process with or without privileges: if the node can be read
    and written and holds text, this is augmented. -/
def revised (privileged : Bool) (node : Inode) : Inode :=
  match node.read with
  | .error _ => node
  | .ok content =>
    match Text.decode? content with
    | none => node
    | some text =>
      match node.write privileged (Text.encode (augment text).text) with
      | .error _ => node
      | .ok written => written

variable {node : Inode} {content : ByteArray} {privileged : Bool} {text : List Char}

theorem read_file (hbody : node.body = .file content) (hread : node.bars.read = none) :
    node.read = .ok content := by
  rw [read, hread, hbody]
  rfl

theorem write_file (hbody : node.body = .file content) (content' : ByteArray) :
    node.write privileged content' =
      match node.bars.write with
      | some fault => .error fault
      | none => .ok { node with
          body := .file content', mode := if privileged then node.mode else node.mode.written } := by
  rewrite [write, hbody]
  rfl

theorem revised_eq_self (hbody : node.body = .file content) (h : node.bars.read ≠ none ∨
    node.bars.write ≠ none ∨ Text.decode? content = none) : node.revised privileged = node := by
  rw [revised]
  cases hread : node.bars.read with
  | some fault =>
    rw [read, hread]
  | none =>
    rw [read_file hbody hread]
    dsimp only
    cases htext : Text.decode? content with
    | none => rfl
    | some text =>
      dsimp only
      rw [write_file hbody]
      cases hwrite : node.bars.write with
      | some fault => rfl
      | none => simp [hread, hwrite, htext] at h

end Inode

/-! ## 2. One visit -/

namespace Encounter

variable {v : Encounter} {id : NodeId} {content : ByteArray} {text : List Char}

/-- The text of a node that can be read. -/
theorem text_of_leadsTo (hpath : v.disk.LeadsTo v.path id)
    (hread : (v.disk.node id).read = .ok content) (htext : Text.decode? content = some text) :
    v.text = .ok text := by
  rw [Encounter.text, Disk.read_eq_ok_iff.mpr ⟨id, hpath, hread⟩]
  dsimp only
  rw [htext]

/-- **A visit writes the augmented text to the node that its path leads to**, if this can be read and
    holds text. -/
theorem stored_of_leadsTo (hpath : v.disk.LeadsTo v.path id)
    (hread : (v.disk.node id).read = .ok content) (htext : Text.decode? content = some text) :
    v.stored =
      match (v.disk.node id).write v.disk.privileged (Text.encode (augment text).text) with
      | .error fault => .error (writeError v.path fault)
      | .ok node => .ok (v.disk.setNode id node) := by
  obtain ⟨-, -, hstored⟩ := of_text_ok (text_of_leadsTo hpath hread htext)
  rw [hstored, Disk.write_of_leadsTo hpath (Inode.body_ne_directory_of_read hread)]
  cases (v.disk.node id).write v.disk.privileged (Text.encode (augment text).text) <;> rfl

/-- The text that is read is that of the node that the path leads to. -/
theorem exists_of_text (h : v.text = .ok text) :
    ∃ id content, v.disk.LeadsTo v.path id ∧ (v.disk.node id).read = .ok content ∧
      Text.decode? content = some text := by
  unfold Encounter.text at h
  split at h
  · cases h
  rename_i bytes hbytes
  split at h
  · cases h
  rename_i text' htext
  cases h
  obtain ⟨id, hpath, hread⟩ := Disk.read_eq_ok_iff.mp hbytes
  exact ⟨id, bytes, hpath, hread, htext⟩

/-- **A visit stores nothing else.** -/
theorem exists_of_stored {disk : Disk} (h : v.stored = .ok disk) :
    ∃ id content text node, v.disk.LeadsTo v.path id ∧ (v.disk.node id).read = .ok content ∧
      Text.decode? content = some text ∧ v.text = .ok text ∧
      (v.disk.node id).write v.disk.privileged (Text.encode (augment text).text) = .ok node ∧
      disk = v.disk.setNode id node := by
  cases htext : v.text with
  | error e =>
    rw [(of_text_error htext).1] at h
    cases h
  | ok text =>
    obtain ⟨id, content, hpath, hread, hdecode⟩ := exists_of_text htext
    rw [stored_of_leadsTo hpath hread hdecode] at h
    cases hwrite : (v.disk.node id).write v.disk.privileged (Text.encode (augment text).text) with
    | error fault =>
      rw [hwrite] at h
      cases h
    | ok node =>
      rw [hwrite] at h
      exact ⟨id, content, text, node, hpath, hread, hdecode, rfl, hwrite, (Except.ok.inj h).symm⟩

/-- A visit that fails makes nothing else of the node that its path leads to. -/
theorem revised_of_stored_error {e : Error} (h : v.stored = .error e)
    (hpath : v.disk.LeadsTo v.path id) :
    (v.disk.node id).revised v.disk.privileged = v.disk.node id := by
  rw [Inode.revised]
  cases hread : (v.disk.node id).read with
  | error fault => rfl
  | ok content =>
    dsimp only
    cases htext : Text.decode? content with
    | none => rfl
    | some text =>
      dsimp only
      rw [stored_of_leadsTo hpath hread htext] at h
      cases hwrite : (v.disk.node id).write v.disk.privileged
          (Text.encode (augment text).text) with
      | error fault => rfl
      | ok node =>
        rw [hwrite] at h
        cases h

/-- A visit changes no name, no kind, no permission and no link. -/
theorem emptied_after (v : Encounter) : v.after.emptied = v.disk.emptied := by
  cases hstored : v.stored with
  | error e => rw [(of_stored_error hstored).2.1]
  | ok disk =>
    obtain ⟨id, content, text, node, -, -, -, -, hwrite, rfl⟩ := exists_of_stored hstored
    rw [(of_stored_ok hstored).2.1, Disk.emptied_setNode (Inode.emptied_of_write hwrite)]

/-- **A visit revises the node that its path leads to, and no other one.** -/
theorem node_after (v : Encounter) (q : NodeId) :
    v.after.node q =
      if v.disk.LeadsTo v.path q then (v.disk.node q).revised v.disk.privileged
      else v.disk.node q := by
  cases hstored : v.stored with
  | error e =>
    rw [(of_stored_error hstored).2.1]
    split
    · rename_i hpath
      rw [revised_of_stored_error hstored hpath]
    · rfl
  | ok disk =>
    obtain ⟨id, content, text, node, hpath, hread, htext, -, hwrite, rfl⟩ :=
      exists_of_stored hstored
    rw [(of_stored_ok hstored).2.1, Disk.node_setNode (Disk.lt_length_of_read hread)]
    by_cases hq : q = id
    · subst hq
      rw [if_pos rfl, if_pos hpath, Inode.revised, hread]
      dsimp only
      rw [htext]
      dsimp only
      rw [hwrite]
    · rw [if_neg hq, if_neg fun h => hq (h.unique hpath)]

end Encounter

/-! ## 3. All visits -/

namespace Disk

/-- Visits change no name, no kind, no permission and no link. -/
theorem emptied_pass (disk : Disk) (paths : List Path) :
    (disk.pass paths).emptied = disk.emptied := by
  induction paths generalizing disk with
  | nil => rfl
  | cons path paths ih => rw [pass, ih, Encounter.emptied_after]

/-- **A pass revises each node as often as its paths lead there.** -/
theorem node_pass (disk : Disk) (paths : List Path) (q : NodeId) :
    (disk.pass paths).node q =
      (Inode.revised disk.privileged)^[paths.countP fun path => disk.LeadsTo path q]
        (disk.node q) := by
  induction paths generalizing disk with
  | nil => rfl
  | cons path paths ih =>
    -- where a path leads is the same on the disk that the first visit leaves
    have hemptied := Encounter.emptied_after ⟨path, disk⟩
    have hprivileged : (Encounter.after ⟨path, disk⟩).privileged = disk.privileged :=
      (congrArg Disk.privileged hemptied :)
    have hcount : (paths.countP fun p => (Encounter.after ⟨path, disk⟩).LeadsTo p q) =
        paths.countP fun p => disk.LeadsTo p q :=
      List.countP_congr fun p _ => by simp only [leadsTo_congr (outline_congr hemptied)]
    rw [pass, ih, hcount, hprivileged, Encounter.node_after, List.countP_cons]
    dsimp only
    split
    · rename_i hpath
      rw [if_pos (decide_eq_true hpath), Function.iterate_succ_apply]
    · rename_i hpath
      rw [if_neg (by simpa using hpath), Nat.add_zero]

/-- What no path leads to is not changed by a pass. -/
theorem node_pass_of_not_leadsTo {disk : Disk} {paths : List Path} {id : NodeId}
    (h : ∀ path ∈ paths, ¬ disk.LeadsTo path id) :
    (disk.pass paths).node id = disk.node id := by
  have hzero : (paths.countP fun path => disk.LeadsTo path id) = 0 :=
    List.countP_eq_zero.mpr fun path hpath => by simpa using h path hpath
  rw [node_pass, hzero]
  rfl

end Disk

/-! ## 4. A sample -/

/-- A disk with a directory w, in which the process runs: a file that may not be written, a file of
    two tags that has two names there, and a link that leads to this one from the root. -/
def sampleDisk : Disk where
  nodes := [
    sampleRoot,
    { body := .directory
        { entries := [(.fileC, 2), (.fileD, 3), (.fileB, 3), (.fileA, 4)], parent := 0 }
      mode := .newDirectory },
    { Inode.newFile (Text.encode "`json:\"c\"`".toList) with bars := { write := some .denied } },
    { Inode.newFile (Text.encode "`json:\"a\" `json:\"b\"`".toList) with
      mode := { permissions := 0o755, setUser := true } },
    { body := .link ⟨.ofText "/w/b.go", by decide⟩, mode := { permissions := 0o777 } }]
  here := 1

/-- The paths of its files. -/
def samplePaths : List Path :=
  [.ofText "./a.go", .ofText "./b.go", .ofText "./c.go", .ofText "./d.go"]

theorem leadsTo_sampleDisk :
    sampleDisk.LeadsTo (.ofText "./a.go") 3 ∧ sampleDisk.LeadsTo (.ofText "./b.go") 3 ∧
      sampleDisk.LeadsTo (.ofText "./c.go") 2 ∧ sampleDisk.LeadsTo (.ofText "./d.go") 3 := by
  refine ⟨?_, ?_, ?_, ?_⟩
  · cbv
  · cbv
  · cbv
  · cbv

/-- The sample directory can be listed. -/
theorem lists_sampleDisk :
    sampleDisk.Lists (.ofText ".") [.fileC, .fileD, .fileB, .fileA] :=
  ⟨1, _, by cbv, rfl, rfl, rfl, rfl⟩

theorem files_sampleDisk : sampleDisk.files (.ofText ".") = .ok samplePaths := by
  rw [lists_sampleDisk.files]
  cbv

theorem listFiles_sampleDisk :
    (listFiles World.host (.ofText ".") { disk := sampleDisk }).1 = .ok samplePaths := by
  rw [listFiles_host]
  exact files_sampleDisk

/-- What becomes of the files of the sample directory: all but the third one are stored, and nothing
    is left to apply to the last one. -/
theorem encounters_sampleDisk :
    (encounters sampleDisk samplePaths).map (fun v => (v.applied, v.failure?, v.lines)) =
      [(["json:\"a\" msgpack:\"a\"".toList], none, ["--> ./a.go", "json:\"a\" msgpack:\"a\""]),
        (["json:\"b\" msgpack:\"b\"".toList], none, ["--> ./b.go", "json:\"b\" msgpack:\"b\""]),
        (["json:\"c\" msgpack:\"c\"".toList], some (writeError (.ofText "./c.go") .denied),
          ["--> ./c.go", "json:\"c\" msgpack:\"c\"", "permission denied: ./c.go"]),
        ([], none, ["--> ./d.go"])] := by
  cbv

theorem exists_encounters_sampleDisk :
    ∃ a b c d : Encounter, encounters sampleDisk samplePaths = [a, b, c, d] ∧
      (a.applied = ["json:\"a\" msgpack:\"a\"".toList] ∧ a.failure? = none ∧
        a.lines = ["--> ./a.go", "json:\"a\" msgpack:\"a\""]) ∧
      (b.applied = ["json:\"b\" msgpack:\"b\"".toList] ∧ b.failure? = none ∧
        b.lines = ["--> ./b.go", "json:\"b\" msgpack:\"b\""]) ∧
      (c.applied = ["json:\"c\" msgpack:\"c\"".toList] ∧
        c.failure? = some (writeError (.ofText "./c.go") .denied) ∧
        c.lines = ["--> ./c.go", "json:\"c\" msgpack:\"c\"", "permission denied: ./c.go"]) ∧
      d.applied = [] ∧ d.failure? = none ∧ d.lines = ["--> ./d.go"] := by
  obtain ⟨a, _, hall, ha, hrest⟩ := List.map_eq_cons_iff.mp encounters_sampleDisk
  obtain ⟨b, _, rfl, hb, hrest⟩ := List.map_eq_cons_iff.mp hrest
  obtain ⟨c, _, rfl, hc, hrest⟩ := List.map_eq_cons_iff.mp hrest
  obtain ⟨d, _, rfl, hd, hrest⟩ := List.map_eq_cons_iff.mp hrest
  rw [List.map_eq_nil_iff.mp hrest] at hall
  simp only [Prod.mk.injEq] at ha hb hc hd
  exact ⟨a, b, c, d, hall, ha, hb, hc, hd⟩

/-- The report on the sample directory. The blocks end after 32, 64, 122 and 133 bytes. -/
theorem report_sampleDisk :
    (encounters sampleDisk samplePaths).flatMap Encounter.block =
        Text.bytesOf ("--> ./a.go\njson:\"a\" msgpack:\"a\"\n--> ./b.go\njson:\"b\" msgpack:\"b\"\n" ++
          "--> ./c.go\njson:\"c\" msgpack:\"c\"\npermission denied: ./c.go\n--> ./d.go\n") ∧
      blockEnds 0 (encounters sampleDisk samplePaths) = [32, 64, 122, 133] := by
  obtain ⟨a, b, c, d, hall, ⟨-, -, ha⟩, ⟨-, -, hb⟩, ⟨-, -, hc⟩, -, -, hd⟩ :=
    exists_encounters_sampleDisk
  rw [hall]
  simp only [List.flatMap_cons, List.flatMap_nil, blockEnds, Encounter.block, ha, hb, hc, hd]
  decide

/-! ## 5. A directory -/

/-- A pass whose report has no limit ends well, on the disk that visits to all its files leave. -/
theorem runIn_of_unlimited {w : World} {dir : Path} {paths : List Path}
    (hfiles : w.disk.files dir = .ok paths) (hlimit : w.report.limit = none) :
    (∃ summary, (runIn World.host dir w).1 = .ok summary) ∧
      (runIn World.host dir w).2.disk = w.disk.pass paths := by
  rw [runIn_of_room hfiles (Sink.fits_of_limit_eq_none hlimit)
    (Sink.hasRoom_of_limit_eq_none hlimit _)]
  exact ⟨⟨_, rfl⟩, rfl⟩

end StructTags
