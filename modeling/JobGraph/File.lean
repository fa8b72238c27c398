/-!
# Files

Why a file cannot be read, and the text that the bytes of a file are.
-/

namespace JobGraph

/-- Why a file cannot be read. -/
inductive FileError where
  | notFound
  | isDirectory
  | notDirectory
  | nameTooLong
  | notUtf8
  /-- Any other cause, in the words of the system. -/
  | other (reason : String)
  deriving DecidableEq, Repr

/-- The text of the error. -/
def FileError.message : FileError → String
  | .notFound => "No such file or directory (os error 2)"
  | .isDirectory => "Is a directory (os error 21)"
  | .notDirectory => "Not a directory (os error 20)"
  | .nameTooLong => "File name too long (os error 36)"
  | .notUtf8 => "stream did not contain valid UTF-8"
  | .other reason => reason

/-- The text of a file's bytes, which are UTF-8. -/
def textOfBytes (bytes : ByteArray) : Except FileError String :=
  match String.fromUTF8? bytes with
  | some text => .ok text
  | none => .error .notUtf8

end JobGraph
