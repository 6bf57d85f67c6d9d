import Deadwood.Backup.Manifest
import Deadwood.Machine
import Deadwood.Surgery.Run

/-!
Taking a backup. The sources and style sheets below a root are copied into a new directory, with a
manifest and a script that copies them back. A backup that fails leaves what it had written.
-/
namespace Deadwood.Backup

def patterns : List String := [
  "**/*.js", "**/*.jsx", "**/*.mjs", "**/*.cjs", "**/*.ts", "**/*.tsx", "**/*.css", "**/*.scss"]

/-- The files to save: none that lie in a directory named as the one that keeps backups. -/
def discovery (dir : Path) : Discovery := ({ patterns } : Discovery).alsoIgnoring dir.name

def scriptName : String := "RESTORE.sh"

def scriptMode : Nat := 0o755

/-- A shell script that copies the saved files over the project. -/
def script (backup root : Path) : String :=
  "#!/bin/sh\n# Restores the files saved in this backup over the project.\nset -e\n" ++
  s!"BACKUP_DIR=\"{backup}\"\n" ++
  s!"PROJECT_ROOT=\"{root}\"\n" ++
  "cd \"$BACKUP_DIR\"\n" ++
  s!"find . -type f ! -name '{Manifest.fileName}' ! -name '{scriptName}' | while read -r f; do\n" ++
  "  mkdir -p \"$PROJECT_ROOT/$(dirname \"$f\")\"\n" ++
  "  cp \"$f\" \"$PROJECT_ROOT/$f\"\n" ++
  "done\necho \"Restored backup from $BACKUP_DIR\"\n"

/-- The path of a source below the root, part by part. -/
def below (root source : Path) : List String := (source.relativeTo? root).getD []

def saved (root backup source : Path) : Path :=
  { backup with parts := backup.parts ++ below root source }

def save (root backup source : Path) : Disk.Action FileError SavedFile := do
  let target := saved root backup source
  Disk.Action.change (·.makeDirectories target.parent true)
  Disk.Action.change (·.copy source target)
  let content ← Disk.Action.ask (·.read target)
  return ⟨"/".intercalate (below root source), Manifest.digest content⟩

def writeScript (here root backup : Path) : Disk.Action FileError Unit := do
  let place := backup.child scriptName
  let text := script (Path.resolve here backup) root
  Disk.Action.change (·.write place (Utf8.encode text))
  Disk.Action.change (·.setMode place scriptMode)

/-- Fills a new directory with the sources. -/
def fill (here : Path) (timestamp : String) (root backup : Path) (sources : List Path) :
    Disk.Action FileError (List SavedFile) := do
  Disk.Action.change (·.makeDirectories backup false)
  let files ← Disk.Action.each (save root backup) sources
  (Manifest.ofFiles timestamp root.toString files).write backup
  writeScript here root backup
  return files

def failure (place : Path) (e : FileError) : BackupFailure :=
  ⟨s!"Failed to create backup at {place}: {e.message}", place.toString⟩

def info (m : Machine) (place : Path) (files : List SavedFile) : BackupInfo :=
  ⟨place.toString, files.length, m.now.text, files.map (·.path)⟩

/-- Where the next backup of a root goes; a relative directory starts from the root. -/
def place (m : Machine) (dir root : Path) : Path := (root.join dir).child m.backupName

def create (dir root : Path) (m : Machine) : Except BackupFailure BackupInfo × Machine :=
  let root := Path.resolve m.disk.here root
  let place := place m dir root
  let sources := m.find root (discovery dir)
  let (r, after) := m.work (fill m.disk.here m.now.text root place sources)
  let after := { after with serial := m.serial + 1 }
  match r with
  | .ok files => (.ok (info m place files), after)
  | .error e => (.error (failure place e), after)

end Deadwood.Backup
