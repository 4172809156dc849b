/-!
# Errors

An error either comes from the file system and names a code and perhaps a path, or it is internal.
Both carry a message and the messages of their causes, outermost first.

* `ErrorCode`: the numbers of the codes, shown as `E` and the number;
* `Error.code`, `Error.path?`, `Error.message`, `Error.causes`: what can be asked of an error;
* `Error.chain`: all its messages, its own first.
-/

namespace StructTags

/-! ## 1. Codes -/

/-- The number that identifies a kind of error. -/
structure ErrorCode where
  number : UInt16
  deriving DecidableEq, Repr

namespace ErrorCode

/-- A file does not exist. -/
def fileNotFound : ErrorCode := ⟨1001⟩

/-- A file cannot be read. -/
def unreadable : ErrorCode := ⟨1002⟩

/-- The bytes of a file are no UTF-8 text. -/
def notText : ErrorCode := ⟨1003⟩

/-- A file cannot be written. -/
def unwritable : ErrorCode := ⟨1004⟩

/-- A directory cannot be listed. -/
def directory : ErrorCode := ⟨1005⟩

/-- The code of every internal error. -/
def internal : ErrorCode := ⟨9000⟩

/-- The code as it is shown. -/
def text (c : ErrorCode) : String := "E" ++ toString c.number.toNat

end ErrorCode

/-! ## 2. Errors -/

/-- What went wrong. The causes are messages, the nearest cause first. -/
inductive Error where
  | fileSystem (code : ErrorCode) (message : String) (path : Option String) (causes : List String)
  | internal (message : String) (causes : List String)
  deriving DecidableEq, Repr

namespace Error

/-- The code of the error; all internal errors share one. -/
def code : Error → ErrorCode
  | fileSystem code .. => code
  | internal .. => .internal

/-- The message of the error itself. -/
def message : Error → String
  | fileSystem _ message .. => message
  | internal message _ => message

/-- The path that the error is about, if it is about one. -/
def path? : Error → Option String
  | fileSystem _ _ path _ => path
  | internal .. => none

/-- The messages of the causes, the nearest first. -/
def causes : Error → List String
  | fileSystem _ _ _ causes => causes
  | internal _ causes => causes

/-- Whether the error comes from the file system. -/
def isFileSystem : Error → Bool
  | fileSystem .. => true
  | internal .. => false

/-- All messages of the error, its own first. -/
def chain (e : Error) : List String := e.message :: e.causes

/-- The error for a file that does not exist, without a cause. -/
def fileNotFound (path : String) : Error :=
  fileSystem .fileNotFound ("file not found: " ++ path) (some path) []

end Error

end StructTags
