import StructTags.Error.Basic
import StructTags.Host
import StructTags.Text.Size

/-!
# Text files and directories

Files are read and written as UTF-8 text, and the regular files of a directory are listed. This
file fixes the errors of the three operations and the order of the list.

* `readText`, `overwrite`, `listFiles`: the operations;
* `readError`, `writeError`, `listError`, `entryError`: which error each fault becomes;
* `filesAmong`: the regular files among the entries of a directory.
-/

namespace StructTags

variable {m : Type → Type} [Monad m]

/-! ## 1. Reading -/

/-- Why a file could not be read as text. -/
inductive ReadFault where
  | service (fault : Fault)
  | notText
  deriving DecidableEq, Repr

/-- The error for a file that could not be read. -/
def readError (path : Path) : ReadFault → Error
  | .service .notFound => failed .fileNotFound "file not found: " Fault.notFound.message
  | .service .denied => failed .unreadable "permission denied: " Fault.denied.message
  | .notText =>
    failed .notText "file is not valid UTF-8 text: " "stream did not contain valid UTF-8"
  | .service fault => failed .unreadable "failed to read file: " fault.message
where
  failed (code : ErrorCode) (start cause : String) : Error :=
    .fileSystem code (start ++ path.display) (some path.display) [cause]

/-- The text of a file. -/
def readText (host : Host m) (path : Path) : m (Except Error (List Char)) := do
  match ← host.read path with
  | .error fault => return .error (readError path (.service fault))
  | .ok bytes =>
    match Text.decode? bytes with
    | none => return .error (readError path .notText)
    | some text => return .ok text

/-! ## 2. Writing -/

/-- The error for a file that could not be written. -/
def writeError (path : Path) (fault : Fault) : Error :=
  let start := if fault = .denied then "permission denied: " else "failed to write file: "
  .fileSystem .unwritable (start ++ path.display) (some path.display) [fault.message]

/-- Replaces the content of a file by a text. -/
def overwrite (host : Host m) (path : Path) (text : List Char) : m (Except Error Unit) := do
  match ← host.write path (Text.encode text) with
  | .error fault => return .error (writeError path fault)
  | .ok () => return .ok ()

/-! ## 3. Listing -/

/-- The error for a directory that could not be listed. -/
def listError (path : Path) (fault : Fault) : Error :=
  .fileSystem .directory ("failed to read directory: " ++ path.display) (some path.display)
    [fault.message]

/-- The error for a directory that failed to deliver one of its entries. -/
def entryError (path : Path) (fault : Fault) : Error :=
  .fileSystem .directory ("failed to read directory entry: " ++ path.display) (some path.display)
    [fault.message]

/-- The paths of the regular files among the entries that a directory delivers, up to the first one
    that it fails to deliver. -/
def filesAmong (host : Host m) (dir : Path) : List (Except Fault Name) → m (Except Error (List Path))
  | [] => return .ok []
  | .error fault :: _ => return .error (entryError dir fault)
  | .ok name :: rest => do
    let isFile ← host.isFile (dir.join name)
    match ← filesAmong host dir rest with
    | .error e => return .error e
    | .ok paths => return .ok (if isFile then dir.join name :: paths else paths)

/-- The paths of the regular files directly inside a directory, in the byte order of their names. -/
def listFiles (host : Host m) (path : Path) : m (Except Error (List Path)) := do
  match ← host.entries path with
  | .error fault => return .error (listError path fault)
  | .ok entries =>
    match ← filesAmong host path entries with
    | .error e => return .error e
    | .ok paths => return .ok (paths.mergeSort Path.notAfter)

end StructTags
