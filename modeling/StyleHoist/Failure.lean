import StyleHoist.Path
import StyleHoist.Registry

/-! The ways in which a run can fail, with the texts that report them and the
exit codes that tell them apart. -/
namespace StyleHoist

/-- Why a file operation fails. -/
inductive FileError where
  | notFound
  | exists
  | notDirectory
  | isDirectory
  | nameTooLong
  | tooManyLinks
  | busy
  | notText
  | notFile
  | emptyCharacter
  /-- Any other reason, in the words of the system. -/
  | other (reason : String)
deriving DecidableEq, Repr

def FileError.message : FileError → String
  | .notFound => "No such file or directory (os error 2)"
  | .exists => "File exists (os error 17)"
  | .notDirectory => "Not a directory (os error 20)"
  | .isDirectory => "Is a directory (os error 21)"
  | .nameTooLong => "File name too long (os error 36)"
  | .tooManyLinks => "Too many levels of symbolic links (os error 40)"
  | .busy => "Device or resource busy (os error 16)"
  | .notText => "stream did not contain valid UTF-8"
  | .notFile => "the source path is neither a regular file nor a symlink to a regular file"
  | .emptyCharacter => "file name contained an unexpected NUL byte"
  | .other reason => reason

inductive Failure where
  /-- Wrong arguments or settings. -/
  | misuse (reason : String)
  | collision (found : Collision)
  /-- A file could not be read or written. -/
  | file (action : String) (path : Path) (cause : FileError)
  | lock (reason : String)
  /-- An edit reaches outside the text that it is made in. -/
  | outside
deriving DecidableEq, Repr

namespace Failure

def message : Failure → String
  | .misuse reason => reason
  | .collision found => found.message
  | .file action path cause =>
    "I/O failure: failed to " ++ action ++ " '" ++ path.display ++ "': " ++ cause.message
  | .lock reason => "Lock acquisition failed: " ++ reason
  | .outside => "an edit reaches outside its text"

def exitCode : Failure → Nat
  | .misuse _ => 1
  | .collision _ => 2
  | .file _ _ _ => 3
  | .lock _ => 4
  | .outside => 101

/-- Names the document in which a collision came up. -/
def inSource (failure : Failure) (name : String) : Failure :=
  match failure with
  | .collision found => .collision (found.inSource name)
  | other => other

end Failure

end StyleHoist
