import StructTags.Disk.Walk

/-!
# The services of a disk

* `find`: the node that a path leads to, through links or not;
* `read`: the content of a file, if it may be read;
* `write`: the new content of a file, if it may be written, or a new file, if its directory may be
  changed;
* `entries`: the entries of a directory, if it may be listed;
* `workingDirectory`: the path of the directory of the process, as the names that lead there from
  the root.

A failed `write` changes nothing, as the content goes only after the file was opened.
-/

namespace StructTags

/-! ## 1. Files -/

/-- What reading gives, where it is allowed. -/
def Body.read : Body → Except Fault ByteArray
  | .file content => .ok content
  | .directory _ => .error .isDirectory
  | .link _ => .error .tooManyLinks
  | .device reading _ => reading

namespace Inode

/-- What reading a node gives. -/
def read (node : Inode) : Except Fault ByteArray :=
  match node.bars.read with
  | some fault => .error fault
  | none => node.body.read

/-- A node with new content, after a process with or without privileges wrote it. -/
def write (node : Inode) (privileged : Bool) (content : ByteArray) : Except Fault Inode :=
  match node.body with
  | .directory _ => .error .isDirectory
  | .link _ => .error .tooManyLinks
  | .file _ =>
    match node.bars.write with
    | some fault => .error fault
    | none =>
      .ok { node with
        body := .file content
        mode := if privileged then node.mode else node.mode.written }
  | .device _ writing =>
    match node.bars.write <|> writing with
    | some fault => .error fault
    | none => .ok node

end Inode

namespace Disk

/-- The node that a path leads to. -/
def find (disk : Disk) (path : Path) : Except Fault NodeId :=
  match disk.locate false path with
  | .error fault => .error fault
  | .ok (.vacant _ _) => .error .notFound
  | .ok (.on id) => .ok id

/-- Whether a path leads to a regular file. -/
def isFile (disk : Disk) (path : Path) : Bool :=
  match disk.find path with
  | .error _ => false
  | .ok id => (disk.node id).isFile

/-- The content of the file at a path. -/
def read (disk : Disk) (path : Path) : Except Fault ByteArray :=
  match disk.find path with
  | .error fault => .error fault
  | .ok id => (disk.node id).read

/-- The disk with the given content in the file at a path. -/
def write (disk : Disk) (path : Path) (content : ByteArray) : Except Fault Disk :=
  match disk.locate true path with
  | .error fault => .error fault
  | .ok (.on id) =>
    match (disk.node id).write disk.privileged content with
    | .error fault => .error fault
    | .ok node => .ok (disk.setNode id node)
  | .ok (.vacant directory name) =>
    match (disk.node directory).bars.write with
    | some fault => .error fault
    | none => .ok (disk.create directory name content)

/-! ## 2. Directories -/

/-- The entries of the directory at a path, as they are delivered. -/
def entries (disk : Disk) (path : Path) : Except Fault (List (Except Fault Name)) :=
  match disk.find path with
  | .error fault => .error fault
  | .ok id =>
    match (disk.node id).body with
    | .directory d =>
      match (disk.node id).bars.read with
      | some fault => .error fault
      | none => .ok d.delivered
    | _ => .error .notDirectory

/-- The names that lead from the root to a directory, if no more than so many steps up lead from
    there to the root. -/
def ascend (disk : Disk) : Nat → NodeId → Option (List Name)
  | 0, id => if id = disk.root then some [] else none
  | n + 1, id =>
    if id = disk.root then some []
    else match (disk.node id).body with
      | .directory d =>
        match (disk.node d.parent).body with
        | .directory above =>
          match above.entries.find? (·.2 = id) with
          | some (name, _) => if d.removed then none else (ascend disk n d.parent).map (· ++ [name])
          | none => none
        | _ => none
      | _ => none

/-- The absolute path of names that lead down from the root. -/
def absolute (names : List Name) : Path :=
  ⟨if names = [] then [slash] else names.flatMap fun name => slash :: name.bytes⟩

/-- The path of the directory of the process. There are no more steps up than there are nodes. -/
def workingDirectory (disk : Disk) : Except Fault Path :=
  match disk.ascend disk.nodes.length disk.here with
  | some names => .ok (absolute names)
  | none => .error .notFound

end Disk

end StructTags
