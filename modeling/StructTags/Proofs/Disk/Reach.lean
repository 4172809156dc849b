import StructTags.Proofs.Disk.Outline

/-!
# Files at the end of a path

* `LeadsTo`: a path leads to a node, through whatever links there are;
* `walk_creating`: to all but a directory a path leads the same way whether it is to be read or to
  be written;
* `write_of_leadsTo`: writing writes the node that the path leads to;
* `Inode.emptied_of_write`, `emptied_setNode`: then nothing but the content of this node has changed,
  and its set-ID bits;
* `Lists`: a path leads to a directory that may be listed, and delivers all of its entries.
-/

namespace StructTags

/-! ## 1. Where steps end -/

/-- A last step that is not the first one is the last of the other steps. -/
theorem getLast?_of_cons {step last : Step} {rest : List Step}
    (h : (step :: rest).getLast? = some last) (hne : step ≠ last) : rest.getLast? = some last := by
  cases rest with
  | nil => exact absurd (Option.some.inj h) hne
  | cons next rest => rwa [List.getLast?_cons_cons] at h

namespace Disk

variable {disk : Disk} {id : NodeId}

/-- Who enters a directory is in one. -/
theorem directory_of_enter {step : Step} {d : Directory} (h : disk.enter id step = .ok d) :
    (disk.node id).body = .directory d := by
  unfold enter at h
  split at h
  · split at h
    · rename_i hbody _
      rw [hbody, Except.ok.inj h]
    · split at h
      · cases h
      · rename_i hbody _ _ _
        rw [hbody, Except.ok.inj h]
  · cases h

/-- Steps that end with a slash lead to a directory. -/
theorem directory_of_walk {creating : Bool} {links : Nat} {start : NodeId} {steps : List Step}
    (h : disk.walk creating links start steps = .ok (.on id))
    (hlast : steps.getLast? = some .inDirectory) : ∃ d, (disk.node id).body = .directory d := by
  fun_induction Disk.walk disk creating links start steps with
  | case1 => cases hlast
  | case3 links start rest d henter ih =>
    cases rest with
    | nil =>
      rw [walk] at h
      cases h
      exact ⟨d, directory_of_enter henter⟩
    | cons step rest => exact ih h (by rwa [List.getLast?_cons_cons] at hlast)
  | case4 _ _ _ _ _ ih => exact ih h (getLast?_of_cons hlast (by decide))
  | case5 _ _ _ _ _ ih => exact ih h (getLast?_of_cons hlast (by decide))
  | case12 _ _ _ _ _ _ _ _ _ _ _ _ _ ih =>
    have hrest := getLast?_of_cons hlast (by simp)
    exact ih h (by rw [List.getLast?_append, hrest]; rfl)
  | case13 _ _ _ _ _ _ _ _ _ _ _ _ ih => exact ih h (getLast?_of_cons hlast (by simp))
  | _ => cases h

/-- What a path that is to create a file may not do at a name: end with slashes only. -/
theorem not_slashes_of_getLast? {creating : Bool} {rest : List Step}
    (h : rest.getLast? ≠ some .inDirectory) :
    ¬ (creating && rest ≠ [] && rest.all (· = .inDirectory)) = true := by
  intro hall
  simp only [Bool.and_eq_true, decide_eq_true_eq, List.all_eq_true] at hall
  obtain ⟨⟨-, hne⟩, hall⟩ := hall
  exact h (by rw [List.getLast?_eq_some_getLast hne, hall _ (List.getLast_mem hne)])

/-- **Steps that do not lead to a directory lead to the same node when a file is to be created.** -/
theorem walk_creating {links : Nat} {start : NodeId} {steps : List Step}
    (h : disk.walk false links start steps = .ok (.on id))
    (hnot : ∀ d, (disk.node id).body ≠ .directory d) :
    disk.walk true links start steps = .ok (.on id) := by
  fun_induction Disk.walk disk false links start steps with
  | case1 => rw [walk, h]
  | case3 links start rest d henter ih =>
    rw [walk, henter]
    exact ih h
  | case4 links start rest d henter ih =>
    rw [walk, henter]
    exact ih h
  | case5 links start rest d henter ih =>
    rw [walk, henter]
    exact ih h
  | case12 start rest d name _ hremoved hlong next hnext target hbody links henter ih =>
    have hlast : rest.getLast? ≠ some .inDirectory := by
      intro hlast
      obtain ⟨d, hd⟩ := directory_of_walk h (by rw [List.getLast?_append, hlast]; rfl)
      exact hnot d hd
    rw [walk, henter]
    dsimp only
    rw [hnext, if_neg (not_slashes_of_getLast? hlast), if_neg hremoved, if_neg hlong]
    dsimp only
    rw [hbody]
    exact ih h
  | case13 links start rest d name _ hremoved hlong next hnext hlink henter ih =>
    have hlast : rest.getLast? ≠ some .inDirectory := by
      intro hlast
      obtain ⟨d, hd⟩ := directory_of_walk h hlast
      exact hnot d hd
    rw [walk, henter]
    dsimp only
    rw [hnext, if_neg (not_slashes_of_getLast? hlast), if_neg hremoved, if_neg hlong]
    dsimp only
    rw [ih h]
    cases hbody : (disk.node next).body with
    | link target => exact absurd hbody (hlink target)
    | _ => rfl
  | _ => cases h

/-! ## 2. Paths to nodes -/

/-- The path leads to the node, through whatever links there are. -/
def LeadsTo (disk : Disk) (path : Path) (id : NodeId) : Prop := disk.find path = .ok id

instance (disk : Disk) (path : Path) (id : NodeId) : Decidable (disk.LeadsTo path id) :=
  match h : disk.find path with
  | .ok found => decidable_of_iff (found = id) (by rw [LeadsTo, h, Except.ok.injEq])
  | .error _ => isFalse (by rw [LeadsTo, h]; exact fun h => nomatch h)

theorem LeadsTo.unique {path : Path} {id' : NodeId} (h : disk.LeadsTo path id)
    (h' : disk.LeadsTo path id') : id = id' :=
  Except.ok.inj (h.symm.trans h')

theorem leadsTo_congr {disk' : Disk} (h : disk'.outline = disk.outline) (path : Path)
    (id : NodeId) : disk'.LeadsTo path id ↔ disk.LeadsTo path id := by
  rw [LeadsTo, LeadsTo, ← find_outline, h, find_outline]

theorem isFile_congr {disk' : Disk} (h : disk'.outline = disk.outline) (path : Path) :
    disk'.isFile path = disk.isFile path := by
  rw [← isFile_outline, h, isFile_outline]

theorem leadsTo_iff_locate {path : Path} :
    disk.LeadsTo path id ↔ disk.locate false path = .ok (.on id) := by
  unfold LeadsTo find
  rcases disk.locate false path with fault | (found | ⟨directory, name⟩)
  · exact iff_of_false nofun nofun
  · simp
  · exact iff_of_false nofun nofun

/-- To all but a directory a path leads also when it is to be written. -/
theorem locate_creating {path : Path} (h : disk.LeadsTo path id)
    (hnot : ∀ d, (disk.node id).body ≠ .directory d) : disk.locate true path = .ok (.on id) := by
  rw [leadsTo_iff_locate, locate] at h
  rw [locate]
  split at h
  · cases h
  · exact walk_creating h hnot

/-- A path that leads to a file is one of a regular file. -/
theorem isFile_eq_true_iff {path : Path} :
    disk.isFile path = true ↔ ∃ id, disk.LeadsTo path id ∧ (disk.node id).isFile = true := by
  unfold isFile LeadsTo
  cases disk.find path with
  | error fault => exact iff_of_false nofun nofun
  | ok id => simp

/-- Reading gives what the node has to read to which the path leads. -/
theorem read_eq_ok_iff {path : Path} {content : ByteArray} :
    disk.read path = .ok content ↔
      ∃ id, disk.LeadsTo path id ∧ (disk.node id).read = .ok content := by
  unfold read LeadsTo
  cases disk.find path with
  | error fault => exact iff_of_false nofun nofun
  | ok id => simp

end Disk

/-! ## 3. Nodes that are read and written -/

namespace Inode

variable {node node' : Inode} {content : ByteArray} {privileged : Bool}

theorem exists_of_isFile (h : node.isFile = true) : ∃ content, node.body = .file content := by
  unfold isFile at h
  split at h
  · exact ⟨_, ‹_›⟩
  · cases h

/-- What can be read is no directory. -/
theorem body_ne_directory_of_read (h : node.read = .ok content) (d : Directory) :
    node.body ≠ .directory d := by
  intro hbody
  unfold read at h
  split at h
  · cases h
  · rw [hbody] at h
    cases h

/-- What is read of a file is its content. -/
theorem content_of_read {before : ByteArray} (hbody : node.body = .file before)
    (h : node.read = .ok content) : before = content := by
  unfold read at h
  split at h
  · cases h
  · rw [hbody] at h
    exact Except.ok.inj h

/-- A file that is written has the new content. -/
theorem body_of_write {before : ByteArray} (hbody : node.body = .file before)
    (h : node.write privileged content = .ok node') : node'.body = .file content := by
  rw [write, hbody] at h
  dsimp only at h
  split at h
  · cases h
  · rw [← Except.ok.inj h]

/-- Only a file changes when it is written, and only its content and its set-ID bits. -/
theorem emptied_of_write (h : node.write privileged content = .ok node') :
    node'.emptied = node.emptied := by
  obtain ⟨body, mode, bars⟩ := node
  unfold write at h
  cases body with
  | file before =>
    dsimp only at h
    cases hbar : bars.write with
    | some fault => rw [hbar] at h; cases h
    | none =>
      rw [hbar] at h
      obtain rfl := Except.ok.inj h
      cases privileged <;> rfl
  | directory d => cases h
  | link target => cases h
  | device reading writing =>
    dsimp only at h
    split at h
    · cases h
    · rw [Except.ok.inj h]

end Inode

namespace Disk

variable {disk : Disk} {id : NodeId}

/-- **Writing writes the node that the path leads to**, if it is no directory. -/
theorem write_of_leadsTo {path : Path} (h : disk.LeadsTo path id)
    (hnot : ∀ d, (disk.node id).body ≠ .directory d) (content : ByteArray) :
    disk.write path content =
      match (disk.node id).write disk.privileged content with
      | .error fault => .error fault
      | .ok node => .ok (disk.setNode id node) := by
  rewrite [write, locate_creating h hnot]
  rfl

theorem lt_length_of_read {content : ByteArray} (h : (disk.node id).read = .ok content) :
    id < disk.nodes.length := by
  rcases Nat.lt_or_ge id disk.nodes.length with hlt | hge
  · exact hlt
  · rw [node, List.getD_eq_getElem?_getD, List.getElem?_eq_none hge] at h
    cases h

/-- A node that differs from the one before in its content only leaves all else as it was. -/
theorem emptied_setNode {node : Inode} (h : node.emptied = (disk.node id).emptied) :
    (disk.setNode id node).emptied = disk.emptied := by
  have hnodes : (disk.nodes.set id node).map Inode.emptied = disk.nodes.map Inode.emptied := by
    refine List.ext_getElem? fun q => ?_
    rw [List.getElem?_map, List.getElem?_map, List.getElem?_set]
    by_cases hq : id = q
    · subst hq
      rw [Disk.node, List.getD_eq_getElem?_getD] at h
      by_cases hlt : id < disk.nodes.length
      · rw [List.getElem?_eq_getElem hlt] at h ⊢
        rw [if_pos rfl, if_pos hlt, Option.map_some, h]
        rfl
      · rw [if_pos rfl, if_neg hlt, List.getElem?_eq_none (Nat.not_lt.mp hlt)]
    · rw [if_neg hq]
  rw [emptied, emptied, mapNodes, mapNodes, setNode, hnodes]

/-! ## 4. Directories that can be listed -/

/-- The path leads to a directory that may be listed and delivers all of its entries, which have
    these names. -/
def Lists (disk : Disk) (dir : Path) (names : List Name) : Prop :=
  ∃ id d, disk.LeadsTo dir id ∧ (disk.node id).body = .directory d ∧
    (disk.node id).bars.read = none ∧ d.fault = none ∧ d.names = names

theorem Lists.nodup {dir : Path} {names : List Name} (h : disk.Lists dir names) : names.Nodup := by
  obtain ⟨id, d, -, -, -, -, rfl⟩ := h
  exact d.nodup_names

/-- A directory that may be opened delivers its entries, and then perhaps a fault. -/
theorem entries_eq_ok_iff {dir : Path} {delivered : List (Except Fault Name)} :
    disk.entries dir = .ok delivered ↔
      ∃ id d, disk.LeadsTo dir id ∧ (disk.node id).body = .directory d ∧
        (disk.node id).bars.read = none ∧ d.delivered = delivered := by
  unfold entries LeadsTo
  cases disk.find dir with
  | error fault => exact iff_of_false nofun nofun
  | ok id =>
    cases hbody : (disk.node id).body with
    | directory d =>
      cases hbar : (disk.node id).bars.read with
      | none => simp [hbody, hbar]
      | some fault => simp [hbody, hbar]
    | _ => simp [hbody]

theorem Lists.entries {dir : Path} {names : List Name} (h : disk.Lists dir names) :
    disk.entries dir = .ok (names.map .ok) := by
  obtain ⟨id, d, hleads, hbody, hbar, hfault, rfl⟩ := h
  refine entries_eq_ok_iff.mpr ⟨id, d, hleads, hbody, hbar, ?_⟩
  rw [Directory.delivered, hfault]
  exact List.append_nil _

end Disk

/-! ## 5. Names and a root for samples -/

def Name.w : Name := .ofText "w"
def Name.fileA : Name := .ofText "a.go"
def Name.fileB : Name := .ofText "b.go"
def Name.fileC : Name := .ofText "c.go"
def Name.fileD : Name := .ofText "d.go"

/-- The root of a sample, with one directory in it. -/
def sampleRoot : Inode where
  body := .directory { entries := [(.w, 1)], parent := 0 }
  mode := .newDirectory

end StructTags
