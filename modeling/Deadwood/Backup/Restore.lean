import Deadwood.Backup.Manifest

/-!
Restoring a backup. Every file that the manifest records is copied to its place if it is there and
has the digest recorded; the others are reported together at the end.
-/
namespace Deadwood.Backup

inductive RestoreError
  | invalid (backup : Path) (fault : Manifest.Fault)
  | misshapen (shape : Misshape)
  | file (error : FileError)
  | incomplete (problems : List String)
  | tooDeep (fault : Manifest.Fault)
  deriving Repr

namespace RestoreError

def className : RestoreError → String
  | .invalid _ _ => "ValueError"
  | .misshapen s => s.className
  | .file e => e.className
  | .incomplete _ => "OSError"
  | .tooDeep fault => fault.className

def message : RestoreError → String
  | .invalid backup fault => s!"Not a valid backup: {backup} ({fault.message})"
  | .misshapen s => s.message
  | .file e => e.message
  | .incomplete problems => "Failed to restore some files:\n" ++ "\n".intercalate problems
  | .tooDeep fault => fault.message

def ofFault (backup : Path) (fault : Manifest.Fault) : RestoreError :=
  if fault.isTooDeep then .tooDeep fault else .invalid backup fault

/-- A failure that comes from the backup or the disk and not from what a manifest says. -/
def isExpected : RestoreError → Bool
  | .misshapen _ => false
  | .tooDeep _ => false
  | _ => true

end RestoreError

/-- What became of one recorded file. -/
inductive Fate
  | restored (path : String)
  | missing (path : String)
  | altered (path : String)
  deriving DecidableEq, Repr

namespace Fate

def restored? : Fate → Option String
  | .restored p => some p
  | _ => none

def problem? : Fate → Option String
  | .restored _ => none
  | .missing p => some s!"{p}: missing from backup"
  | .altered p => some s!"{p}: hash mismatch"

theorem problem?_eq_none (f : Fate) : f.problem? = none ↔ f.restored?.isSome := by
  cases f <;> simp [problem?, restored?]

end Fate

abbrev RestoreAction := Disk.Action RestoreError

def shaped {α : Type} (r : Except Misshape α) : RestoreAction α :=
  Disk.Action.ask fun _ => r.mapError .misshapen

def onDisk {α : Type} (act : Disk.Action FileError α) : RestoreAction α := act.mapError .file

/-- Copies a saved file to its place, making the directories on the way. -/
def copyBack (source target : Path) : Disk.Action FileError Unit := do
  Disk.Action.change (·.makeDirectories target.parent true)
  Disk.Action.change (·.copy source target)

def restoreFile (backup root : Path) (record : Json) : RestoreAction Fate := do
  let path ← shaped (pathOf record)
  let source := backup.join (.ofString path)
  if (← onDisk (Disk.Action.ask (·.stat source))).isNone then return .missing path
  let content ← onDisk (Disk.Action.ask (·.read source))
  match ← shaped (field record "sha256") with
  | .text digest =>
    if digest = Manifest.digest content then
      onDisk (copyBack source (root.join (.ofString path)))
      return .restored path
    else return .altered path
  | _ => return .altered path

/-- The directory given, or else the one recorded. -/
def destination (into : Option Path) (manifest : Json) : Except Misshape Path :=
  match into with
  | some p => .ok p
  | none => (rootOf manifest).map .ofString

def summary (fates : List Fate) : Except RestoreError (List String) :=
  match fates.filterMap Fate.problem? with
  | [] => .ok (fates.filterMap Fate.restored?)
  | problems => .error (.incomplete problems)

def restore (backup : Path) (into : Option Path) : RestoreAction (List String) := do
  let manifest ← Disk.Action.ask fun d => (Manifest.read d backup).mapError (.ofFault backup)
  let root ← shaped (destination into manifest)
  let records ← shaped (recordsOf manifest)
  let fates ← Disk.Action.each (restoreFile backup root) records
  Disk.Action.ask fun _ => summary fates

end Deadwood.Backup
