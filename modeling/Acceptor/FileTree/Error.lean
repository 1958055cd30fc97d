/-!
# Failed accesses to files

Why a file cannot be read or written, and the complaints about it in the words of the system.
-/

namespace Acceptor

/-- Why a file cannot be used. -/
inductive FileError where
  /-- There is no such file. -/
  | missing
  /-- A file stands where a directory should. -/
  | notDirectory
  /-- The path names a directory. -/
  | isDirectory
  /-- The path or a name in it is longer than the system takes. -/
  | nameTooLong
  /-- The path holds the character that ends paths. -/
  | nulInPath
  /-- The bytes are no text. -/
  | notText
  /-- The system gives another reason. -/
  | other (reason : String)
  deriving DecidableEq

namespace FileError

/-- The complaint about a file. -/
def message : FileError → String
  | missing => "No such file or directory (os error 2)"
  | notDirectory => "Not a directory (os error 20)"
  | isDirectory => "Is a directory (os error 21)"
  | nameTooLong => "File name too long (os error 36)"
  | nulInPath => "file name contained an unexpected NUL byte"
  | notText => "stream did not contain valid UTF-8"
  | other reason => reason

end FileError

end Acceptor
