import StructTags.Log.Journal
import StructTags.Path

/-!
# The surroundings of a pass

A pass over a directory needs a few services: the working directory, the entries of a directory,
whole files, a place for its report and a log. `Host` is the list of these services, in any monad,
so that the same pass runs on a real machine and on a model of one.
-/

namespace StructTags

/-- The services that a pass needs. -/
structure Host (m : Type → Type) where
  /-- The absolute path of the working directory. -/
  workingDirectory : m (Except Fault Path)
  /-- The names of the entries of a directory, in any order. The directory may fail to deliver one
      of them. -/
  entries : Path → m (Except Fault (List (Except Fault Name)))
  /-- Whether a path leads to a regular file once links are followed. -/
  isFile : Path → m Bool
  /-- The content of a file. -/
  read : Path → m (Except Fault ByteArray)
  /-- Replaces the content of a file. -/
  write : Path → ByteArray → m (Except Fault Unit)
  /-- Appends to the report. -/
  print : String → m (Except Fault Unit)
  /-- Appends to the log. -/
  log : Log.Signal → m Unit

end StructTags
