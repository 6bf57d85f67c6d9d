import Deadwood.Bytes
import Deadwood.Files.Discovery
import Deadwood.Number.Digits
import Deadwood.Text.Quoted

/-!
What the analysis and the surgery need of a place that holds files: reading, replacing and finding
them. A failure has a class and a message, both of which can end up in a report.
-/
namespace Deadwood

inductive SystemError
  | noEntry
  | denied
  | fileExists
  | notDirectory
  | isDirectory
  | nameTooLong
  deriving DecidableEq, Repr

namespace SystemError

def number : SystemError → Nat
  | .noEntry => 2
  | .denied => 13
  | .fileExists => 17
  | .notDirectory => 20
  | .isDirectory => 21
  | .nameTooLong => 36

def reason : SystemError → String
  | .noEntry => "No such file or directory"
  | .denied => "Permission denied"
  | .fileExists => "File exists"
  | .notDirectory => "Not a directory"
  | .isDirectory => "Is a directory"
  | .nameTooLong => "File name too long"

def className : SystemError → String
  | .noEntry => "FileNotFoundError"
  | .denied => "PermissionError"
  | .fileExists => "FileExistsError"
  | .notDirectory => "NotADirectoryError"
  | .isDirectory => "IsADirectoryError"
  | .nameTooLong => "OSError"

end SystemError

inductive FileError
  | absent (path : Path)
  | refused (path : Path)
  | system (error : SystemError) (path : Path)
  | rename (error : SystemError) (source target : Path)
  | sameFile (source target : Path)
  | emptyName (path : Path)
  | nullByte
  | longNumber
  deriving DecidableEq, Repr

namespace FileError

def className : FileError → String
  | .absent _ => "FileNotFoundError"
  | .refused _ => "PermissionError"
  | .system e _ => e.className
  | .rename e _ _ => e.className
  | .sameFile _ _ => "SameFileError"
  | .emptyName _ => "ValueError"
  | .nullByte => "ValueError"
  | .longNumber => "ValueError"

def quoted (p : Path) : String := Text.quoted p.toString

def message : FileError → String
  | .absent p => s!"File not found in mock: {p}"
  | .refused p => s!"Permission denied: {p}"
  | .system e p => s!"[Errno {e.number}] {e.reason}: {quoted p}"
  | .rename e p q => s!"[Errno {e.number}] {e.reason}: {quoted p} -> {quoted q}"
  | .sameFile p q => s!"PosixPath({quoted p}) and PosixPath({quoted q}) are the same file"
  | .emptyName p => s!"PosixPath({quoted p}) has an empty name"
  | .nullByte => "embedded null byte"
  | .longNumber =>
    s!"Exceeds the limit ({Number.maxDigits} digits) for integer string conversion; " ++
      "use sys.set_int_max_str_digits() to increase the limit"

end FileError

class Store (σ : Type) where
  read : σ → Path → Except FileError Bytes
  write : σ → Path → Bytes → Except FileError Unit × σ
  find : σ → Path → Discovery → List Path

end Deadwood
