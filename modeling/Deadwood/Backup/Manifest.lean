import Deadwood.Backup.Shape
import Deadwood.Digest.Sha256
import Deadwood.Disk.Action
import Deadwood.Json.Reader
import Deadwood.Text.Blank
import Deadwood.Text.Utf8

/-!
The manifest of a backup: the files it holds, each with its digest, and the directory they were
copied from. It is written beside its place and then moved there.
-/
namespace Deadwood

/-- A file of a backup: its path below the root and the digest of its content. -/
structure SavedFile where
  path : String
  digest : String
  deriving DecidableEq, Repr

def SavedFile.toJson (f : SavedFile) : Json :=
  .object [("path", .text f.path), ("sha256", .text f.digest)]

structure Manifest where
  timestamp : String
  root : String
  count : Nat
  files : Json
  deriving Repr

namespace Manifest

def ofFiles (timestamp root : String) (files : List SavedFile) : Manifest :=
  { timestamp, root, count := files.length, files := .list (files.map SavedFile.toJson) }

/-- A manifest whose files are given as a value of any shape that has a length. -/
def ofJson (timestamp root : String) (files : Json) : Except Backup.Misshape Manifest :=
  return { timestamp, root, count := ← Backup.lengthOf files, files }

def digest (content : Bytes) : String := (Sha256.hash content).toHex

def fileName : String := "BACKUP_INFO.json"

def version : String := "1.0"

def place (backup : Path) : Path := backup.child fileName

def temporary (backup : Path) : Path := backup.child "BACKUP_INFO.tmp"

def toJson (m : Manifest) : Json :=
  .object [("version", .text version), ("timestamp", .text m.timestamp),
    ("projectRoot", .text m.root), ("fileCount", .nat m.count), ("files", m.files)]

def content (m : Manifest) : Bytes := Utf8.encode (m.toJson.pretty false)

/-- Whether the number of files has few enough digits to be written. -/
def isCountable (m : Manifest) : Bool :=
  decide ((toString m.count).toList.length ≤ Number.maxDigits)

/-- The text in front of the number of files. -/
def opening (m : Manifest) : List Char :=
  let fields := Json.prettyFields false 1 [("version", .text version),
    ("timestamp", .text m.timestamp), ("projectRoot", .text m.root)]
  '\x7b' :: (fields.flatMap fun text => Json.newLine 1 ++ text ++ [',']) ++
    Json.newLine 1 ++ Json.quote false "fileCount" ++ [':', ' ']

/-- Writes the text beside its place and moves it there. A number that is too long to be written
stops it where the number would stand. -/
def write (m : Manifest) (backup : Path) : Disk.Action FileError Unit := do
  if m.isCountable then
    Disk.Action.change (·.write (temporary backup) m.content)
    Disk.Action.change (·.rename (temporary backup) (place backup))
  else
    Disk.Action.change (·.write (temporary backup) (Utf8.encode (String.ofList m.opening)))
    Disk.Action.change fun _ => .error .longNumber

/-- Why there is no manifest to be read. -/
inductive Fault
  | file (error : FileError)
  | text (fault : Utf8.Fault)
  | json (error : Json.ReadError)
  deriving DecidableEq, Repr

namespace Fault

def className : Fault → String
  | .file e => e.className
  | .text _ => "UnicodeDecodeError"
  | .json e => e.refusal.className

def message : Fault → String
  | .file e => e.message
  | .text fault => fault.message
  | .json e => e.message

def isTooDeep : Fault → Bool
  | .json e => e.refusal.isDepth
  | _ => false

end Fault

def ofBytes (content : Bytes) : Except Fault Json := do
  let text ← (Utf8.decode content).mapError .text
  (Json.read (String.ofList (Text.unifyLineEnds text.toList))).mapError .json

def read (d : Disk) (backup : Path) : Except Fault Json := do
  ofBytes (← (d.read (place backup)).mapError .file)

end Manifest

end Deadwood
