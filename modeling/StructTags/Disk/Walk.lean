import StructTags.Disk.Basic

/-!
# Following a path

A path is followed step by step, from the root if it begins with a slash, and else from the directory
of the process. Looking up a name, the current directory or the parent needs the right to search the
directory one is in; a slash at the end only asks that one is in a directory. Links are followed
wherever they are met, at most forty of them on one path.

* `Step`, `steps`: a path cut into steps;
* `Landing`: where a path leads, an existing node or a free name in an existing directory;
* `walk`: the steps one after the other;
* `locate`: the whole path, with the checks on its bytes.
-/

namespace StructTags

/-! ## 1. Steps -/

/-- One step of a path. -/
inductive Step where
  /-- Down to a name. -/
  | name (name : Name)
  /-- The current directory again. -/
  | here
  /-- Up to the parent. -/
  | up
  /-- Nowhere, but only from a directory. -/
  | inDirectory
  deriving DecidableEq, Repr

namespace Step

/-- The step that a part of a path between slashes asks for. -/
def ofPart (part : List UInt8) : Step :=
  if h : IsName part then name ⟨part, h⟩ else if part = [dot, dot] then up else here

end Step

/-- The steps of a path. -/
def steps (path : Path) : List Step :=
  let all := path.bytes.splitOn slash
  (all.filter (· ≠ [])).map Step.ofPart ++ if all.getLast? = some [] then [.inDirectory] else []

/-! ## 2. The walk -/

/-- Where a path leads. -/
inductive Landing where
  /-- To a node that exists and is no link. -/
  | on (id : NodeId)
  /-- To a name that is free in a directory that exists. -/
  | vacant (directory : NodeId) (name : Name)
  deriving DecidableEq, Repr

/-- The most links that are followed on one path. -/
def linkLimit : Nat := 40

/-- The most bytes in one name. -/
def nameLimit : Nat := 255

namespace Disk

/-- The directory at a node, from which a step is to be taken. All steps but the last kind need the
    right to search it. -/
def enter (disk : Disk) (id : NodeId) (step : Step) : Except Fault Directory :=
  match (disk.node id).body with
  | .directory d =>
    if step = .inDirectory then .ok d
    else match (disk.node id).bars.search with
      | some fault => .error fault
      | none => .ok d
  | _ => .error .notDirectory

/-- The node from which a path is followed that is met in a directory. -/
def origin (disk : Disk) (id : NodeId) (path : Path) : NodeId :=
  if path.isAbsolute then disk.root else id

/-- Follows steps from a node, with a number of links left. A path that is to be `creating` a file
    must not end in a slash. No name is found in a directory that was removed, however long. -/
def walk (disk : Disk) (creating : Bool) (links : Nat) (id : NodeId) :
    List Step → Except Fault Landing
  | [] => .ok (.on id)
  | step :: rest =>
    match disk.enter id step with
    | .error fault => .error fault
    | .ok directory =>
      match step with
      | .inDirectory => walk disk creating links id rest
      | .here => walk disk creating links id rest
      | .up => walk disk creating links directory.parent rest
      | .name name =>
        if creating && rest ≠ [] && rest.all (· = .inDirectory) then .error .isDirectory
        else if directory.removed then .error .notFound
        else if nameLimit < name.bytes.length then .error .nameTooLong
        else match directory.entries.lookup name with
          | none => if rest = [] then .ok (.vacant id name) else .error .notFound
          | some next =>
            match (disk.node next).body with
            | .link target =>
              match links with
              | 0 => .error .tooManyLinks
              | links + 1 =>
                walk disk creating links (disk.origin id target.path) (steps target.path ++ rest)
            | _ => walk disk creating links next rest
termination_by steps => (links, steps.length)

/-- Where a path leads. -/
def locate (disk : Disk) (creating : Bool) (path : Path) : Except Fault Landing :=
  match path.fault? with
  | some fault => .error fault
  | none => disk.walk creating linkLimit (disk.origin disk.here path) (steps path)

end Disk

end StructTags
