import Deadwood.Disk.Discovery

/-!
Replacing a file so that readers see its old content or the new one: the content goes to a file
beside the target, which then takes the target's name. Any step may be interrupted, the writing also
partway; what was written beside the target is then cleared away, unless that fails too.
-/
namespace Deadwood.Disk

inductive ReplaceStep
  | create
  /-- So many bytes of the content have been written by now. -/
  | write (size : Nat)
  | sync
  | copyMode
  | rename
  deriving DecidableEq, Repr

/-- How a replacement goes: how much of the content has been written each time some of it was, which
errors interrupt which steps, and the error that keeps the cleanup from removing the file beside the
target. -/
structure Course where
  portions : List Nat := []
  interrupts : ReplaceStep → Option FileError := fun _ => none
  cleanup : Option FileError := none

/-- All steps before the target changes. -/
def preparation (c : Course) (content : Bytes) : List ReplaceStep :=
  .create :: c.portions.map .write ++ [.write content.length, .sync, .copyMode]

def replaceSteps (c : Course) (content : Bytes) : List ReplaceStep :=
  preparation c content ++ [.rename]

/-- The file beside a target that holds its new content for a while. -/
def temporary (p : Path) : Path := p.withName s!".{p.name}.script-doctor.tmp"

def copyMode (d : Disk) (source target : Path) : Except FileError Disk :=
  if d.exists? source then do d.setMode target (← d.mode source) else .ok d

def perform (p : Path) (content : Bytes) (d : Disk) : ReplaceStep → Except FileError Disk
  | .create => d.write (temporary p) []
  | .write size => d.write (temporary p) (content.take size)
  | .sync => .ok d
  | .copyMode => d.copyMode p (temporary p)
  | .rename => d.rename (temporary p) p

def attempt (c : Course) (p : Path) (content : Bytes) (d : Disk) (s : ReplaceStep) :
    Except FileError Disk :=
  match c.interrupts s with
  | some e => .error e
  | none => perform p content d s

def performAll (c : Course) (p : Path) (content : Bytes) :
    Disk → List ReplaceStep → Except FileError Unit × Disk
  | d, [] => (.ok (), d)
  | d, s :: rest =>
    match attempt c p content d s with
    | .error e => (.error e, d)
    | .ok d => performAll c p content d rest

def unlink (c : Course) (p : Path) (d : Disk) : Except FileError Disk :=
  match c.cleanup with
  | some e => .error e
  | none => d.remove (temporary p)

/-- Removes what is left beside the target; an error of that takes the place of the first. Where the
path itself is refused for a null character, nothing is there to remove. -/
def clear (c : Course) (p : Path) (e : FileError) (d : Disk) : Except FileError Unit × Disk :=
  if d.exists? (temporary p) then
    match unlink c p d with
    | .ok d => (.error e, d)
    | .error f => (.error f, d)
  else (.error e, d)

def replaceInterrupted (c : Course) (d : Disk) (p : Path) (content : Bytes) :
    Except FileError Unit × Disk :=
  if p.parts = [] then (.error (.emptyName p), d)
  else
    match performAll c p content d (replaceSteps c content) with
    | (.ok (), d) => (.ok (), d)
    | (.error e, d) => clear c p e d

def replace (d : Disk) (p : Path) (content : Bytes) : Except FileError Unit × Disk :=
  replaceInterrupted {} d p content

instance : Store Disk := ⟨read, replace, find⟩

end Deadwood.Disk
