import StructTags.Path

/-!
# A disk

A file system is a graph of numbered nodes. A directory has entries, each of which gives a name to a
node; a link holds a path. So one file may have several names, and a link may lead anywhere.

* `Bars`, `Mode`: what the process may not do with a node, and what the mode of a node is;
* `Directory`: entries with different names;
* `Inode`: a file, a directory, a link or a device;
* `Disk`: all nodes, with the root and the directory in which the process runs;
* `node_setNode`: what is put in the place of a node is found there, and all else is as it was.
-/

namespace StructTags

/-! ## 1. Rights -/

/-- What the system denies the process at a node: the fault that each use of it ends in. -/
structure Bars where
  read : Option Fault := none
  write : Option Fault := none
  /-- Looking up a name, if the node is a directory. -/
  search : Option Fault := none
  deriving DecidableEq, Repr

/-- The mode of a node. -/
structure Mode where
  /-- The nine bits of owner, group and others. -/
  permissions : Nat
  setUser : Bool := false
  setGroup : Bool := false
  deriving DecidableEq, Repr

namespace Mode

/-- The mode of a new file. -/
def newFile : Mode := { permissions := 0o644 }

/-- The mode of a new directory. -/
def newDirectory : Mode := { permissions := 0o755 }

/-- Whether the group may execute. -/
def groupExecutes (mode : Mode) : Bool := mode.permissions.testBit 3

/-- What the system leaves of the mode of a file that is written by a process without privileges:
    who runs the file must not have other rights by it than who wrote it. -/
def written (mode : Mode) : Mode :=
  { mode with setUser := false, setGroup := mode.setGroup && !mode.groupExecutes }

@[simp] theorem written_written (mode : Mode) : mode.written.written = mode.written := by
  simp [written, groupExecutes]

end Mode

/-! ## 2. Nodes -/

/-- The number of a node. -/
abbrev NodeId := Nat

/-- A directory. -/
structure Directory where
  entries : List (Name × NodeId) := []
  distinct : (entries.map Prod.fst).Nodup := by decide
  /-- The directory above. The root is above itself. -/
  parent : NodeId
  /-- Whether the directory was removed. What is removed is empty, and nothing can be made in it. -/
  removed : Bool := false
  empty : removed = true → entries = [] := by decide
  /-- The fault in which reading the entries ends, if it does not come to the end of them. -/
  fault : Option Fault := none
  deriving DecidableEq, Repr

namespace Directory

/-- The names of the entries. -/
def names (d : Directory) : List Name := d.entries.map Prod.fst

theorem nodup_names (d : Directory) : d.names.Nodup := d.distinct

/-- The entries as they are delivered. -/
def delivered (d : Directory) : List (Except Fault Name) :=
  d.names.map .ok ++ d.fault.toList.map .error

theorem nodup_names_insert (d : Directory) {name : Name} (id : NodeId) (h : name ∉ d.names) :
    ((d.entries ++ [(name, id)]).map Prod.fst).Nodup := by
  rw [List.map_append, List.map_singleton, List.nodup_append]
  refine ⟨d.distinct, by simp, fun a ha b hb hab => h ?_⟩
  obtain rfl : a = name := hab.trans (List.mem_singleton.mp hb)
  exact ha

/-- The directory with one more entry, unless there is one of that name or there can be none. -/
def insert (d : Directory) (name : Name) (id : NodeId) : Directory :=
  if h : name ∈ d.names ∨ d.removed = true then d
  else { d with
    entries := d.entries ++ [(name, id)]
    distinct := d.nodup_names_insert id fun hmem => h (.inl hmem)
    empty := fun hremoved => absurd (.inr hremoved) h }

end Directory

/-- A path that a link can hold. -/
structure Target where
  path : Path
  sound : path.fault? = none
  deriving DecidableEq, Repr

/-- What a node is. -/
inductive Body where
  | file (content : ByteArray)
  | directory (d : Directory)
  | link (target : Target)
  /-- A device, a pipe or a socket: what reading it gives, and the fault in which writing ends. -/
  | device (reading : Except Fault ByteArray) (writing : Option Fault)

/-- A node. -/
structure Inode where
  body : Body
  mode : Mode
  bars : Bars := {}

namespace Inode

/-- What stands for a node that does not exist. -/
def absent : Inode := ⟨.device (.error .notFound) (some .notFound), ⟨0, false, false⟩, {}⟩

/-- Whether the node is a regular file. -/
def isFile (node : Inode) : Bool :=
  match node.body with
  | .file _ => true
  | _ => false

/-- A new file. -/
def newFile (content : ByteArray) : Inode := { body := .file content, mode := .newFile }

/-- A new directory. -/
def newDirectory (parent : NodeId) : Inode := { body := .directory { parent }, mode := .newDirectory }

end Inode

/-! ## 3. Disks -/

/-- A file system, as a process in it finds it. -/
structure Disk where
  nodes : List Inode := [.newDirectory 0]
  root : NodeId := 0
  /-- The directory from which the process follows its paths. -/
  here : NodeId := 0
  /-- Whether the process may leave set-user-ID and set-group-ID bits on what it writes. -/
  privileged : Bool := false

namespace Disk

/-- The node of a number. -/
def node (disk : Disk) (id : NodeId) : Inode := disk.nodes.getD id .absent

/-- The disk with another node in the place of one. -/
def setNode (disk : Disk) (id : NodeId) (node : Inode) : Disk :=
  { disk with nodes := disk.nodes.set id node }

/-- The disk with a new file in a directory. -/
def create (disk : Disk) (directory : NodeId) (name : Name) (content : ByteArray) : Disk :=
  let node := disk.node directory
  match node.body with
  | .directory d =>
    { disk with
      nodes := disk.nodes.set directory
        { node with body := .directory (d.insert name disk.nodes.length) } ++ [.newFile content] }
  | _ => disk

/-- What is put in the place of a node is found there, and all else is as it was. -/
theorem node_setNode {disk : Disk} {id : NodeId} (h : id < disk.nodes.length) (node : Inode)
    (q : NodeId) : (disk.setNode id node).node q = if q = id then node else disk.node q := by
  unfold Disk.node setNode
  rw [List.getD_eq_getElem?_getD, List.getD_eq_getElem?_getD, List.getElem?_set]
  by_cases hq : q = id
  · rw [hq, if_pos rfl, if_pos rfl, if_pos h, Option.getD_some]
  · rw [if_neg hq, if_neg (Ne.symm hq)]

end Disk

end StructTags
