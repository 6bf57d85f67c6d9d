import Deadwood.Disk.Entry
import Deadwood.Files.Store

/-!
A disk: a directory tree and the directory where relative paths start. Every operation settles its
path first, part by part, and fails with the error of the first part that cannot be passed. Names
and paths have a greatest length, and none holds a null character.
-/
namespace Deadwood

structure Disk where
  root : Entry := .empty
  here : Path := ⟨1, []⟩
  deriving Repr, Inhabited

namespace Disk

def at? (d : Disk) (names : List String) : Option Entry := d.root.get? names

/-- The most bytes that a name may have. -/
def maxNameSize : Nat := 255

/-- The most bytes that a path may have. -/
def maxPathSize : Nat := 4095

/-- The names that a path leads to from a directory that exists; the last of them need not. -/
def settleFrom (d : Disk) (done : List String) : List String → Except SystemError (List String)
  | [] => .ok done
  | part :: rest =>
    if part = ".." then settleFrom d done.dropLast rest
    else if maxNameSize < part.utf8ByteSize then .error .nameTooLong
    else match d.at? (done ++ [part]) with
      | some (.directory _ _) => settleFrom d (done ++ [part]) rest
      | some (.file _ _) => if rest.isEmpty then .ok (done ++ [part]) else .error .notDirectory
      | none => if rest.isEmpty then .ok (done ++ [part]) else .error .noEntry

def settle (d : Disk) (p : Path) : Except FileError (List String) :=
  if p.hasNull then .error .nullByte
  else if maxPathSize < p.toString.utf8ByteSize then .error (.system .nameTooLong p)
  else (d.settleFrom [] (d.here.join p).parts).mapError (.system · p)

/-- The absolute path with no `..` left. -/
def resolve (d : Disk) (p : Path) : Except FileError Path :=
  if p.hasNull then .error .nullByte else .ok (Path.resolve d.here p)

/-- What stands at a path, if anything does. A path that leads nowhere is no error, one that is too
long is. -/
def stat (d : Disk) (p : Path) : Except FileError (Option Entry) :=
  match d.settle p with
  | .ok names => .ok (d.at? names)
  | .error (.system .nameTooLong p) => .error (.system .nameTooLong p)
  | .error _ => .ok none

/-- What stands at a path, a path that is too long leading nowhere. -/
def lookup? (d : Disk) (p : Path) : Option Entry := (d.settle p).toOption.bind d.at?

def entry (d : Disk) (p : Path) : Except FileError Entry := do
  match d.at? (← d.settle p) with
  | some e => return e
  | none => .error (.system .noEntry p)

def exists? (d : Disk) (p : Path) : Bool := (d.lookup? p).isSome

def isDirectory (d : Disk) (p : Path) : Bool := ((d.lookup? p).map Entry.isDirectory).getD false

def isFile (d : Disk) (p : Path) : Except FileError Bool :=
  return ((← d.stat p).map (! ·.isDirectory)).getD false

def read (d : Disk) (p : Path) : Except FileError Bytes := do
  match ← d.entry p with
  | .file _ content => return content
  | .directory _ _ => .error (.system .isDirectory p)

def put (d : Disk) (names : List String) (e : Option Entry) : Disk :=
  { d with root := d.root.put e names }

/-- Replaces a file's content and keeps its mode, or makes a new file. -/
def write (d : Disk) (p : Path) (content : Bytes) : Except FileError Disk := do
  let names ← d.settle p
  match d.at? names with
  | some (.directory _ _) => .error (.system .isDirectory p)
  | some (.file mode _) => return d.put names (some (.file mode content))
  | none => return d.put names (some (.file Entry.newFileMode content))

def remove (d : Disk) (p : Path) : Except FileError Disk := do
  let names ← d.settle p
  match d.at? names with
  | some (.file _ _) => return d.put names none
  | some (.directory _ _) => .error (.system .isDirectory p)
  | none => .error (.system .noEntry p)

def setMode (d : Disk) (p : Path) (mode : Nat) : Except FileError Disk := do
  let e ← d.entry p
  return d.put (← d.settle p) (some (e.withMode mode))

def mode (d : Disk) (p : Path) : Except FileError Nat := return (← d.entry p).mode

/-- Moves a file over another name, where no directory may stand. -/
def rename (d : Disk) (source target : Path) : Except FileError Disk := do
  let e ← d.entry source
  let old ← d.settle source
  let names ← d.settle target
  match d.at? names with
  | some (.directory _ _) => .error (.rename .isDirectory source target)
  | _ => return (d.put old none).put names (some e)

def makeDirectory (d : Disk) (p : Path) : Except FileError Disk := do
  let names ← d.settle p
  match d.at? names with
  | some _ => .error (.system .fileExists p)
  | none => return d.put names (some .empty)

/-- Whether an error of making a directory may be passed over because the directory is there. -/
def settledFor (d : Disk) (p : Path) (existing : Bool) (e : FileError) : Except FileError Disk :=
  if existing ∧ d.isDirectory p then .ok d else .error e

/-- Makes a directory and those above it that are missing, at most `n` of them. -/
def makeDirectoriesUpTo : Nat → Disk → Path → Bool → Except FileError Disk
  | 0, d, p, existing =>
    match d.makeDirectory p with
    | .ok d => .ok d
    | .error e => settledFor d p existing e
  | n + 1, d, p, existing =>
    match d.makeDirectory p with
    | .ok d => .ok d
    | .error (.system .noEntry q) =>
      if p.parts = [] then .error (.system .noEntry q)
      else do
        let d ← makeDirectoriesUpTo n d p.parent true
        match d.makeDirectory p with
        | .ok d => .ok d
        | .error e => settledFor d p existing e
    | .error e => settledFor d p existing e

def makeDirectories (d : Disk) (p : Path) (existing : Bool) : Except FileError Disk :=
  makeDirectoriesUpTo p.parts.length d p existing

/-- Writes a file after making the directories above it. -/
def store (d : Disk) (p : Path) (content : Bytes) : Except FileError Disk := do
  (← d.makeDirectories p.parent true).write p content

/-- Where a copy goes: into a directory under its own name, or to the name given. -/
def copyTarget (d : Disk) (source target : Path) : Path :=
  if d.isDirectory target then target.child source.name else target

def isSame (d : Disk) (p q : Path) : Bool :=
  d.exists? p && d.exists? q && (d.settle p).toOption == (d.settle q).toOption

/-- Copies a file's content and mode. -/
def copy (d : Disk) (source target : Path) : Except FileError Disk := do
  let target := d.copyTarget source target
  if d.isSame source target then .error (.sameFile source target)
  else
    let content ← d.read source
    let d ← d.write target content
    d.setMode target (← d.mode source)

def changes (before after : Disk) : List (List String × Option Bytes) :=
  let old := before.root.files []
  let new := after.root.files []
  let gone := old.filter fun (p, _) => (Keyed.get? new p).isNone
  let altered := new.filter fun (p, b) => Keyed.get? old p != some b
  gone.map (fun (p, _) => (p, none)) ++ altered.map (fun (p, b) => (p, some b))

end Disk

end Deadwood
