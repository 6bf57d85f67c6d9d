import Deadwood.Analysis.Report
import Deadwood.Surgery.Mutation

/-!
Analysis and surgery of whole projects. An analysis finds the files below a root, reads and indexes
them. An operation first takes its backup, then mutates file after file in the order of their
names, and folds the outcomes into a report.
-/
namespace Deadwood

namespace Analysis

variable {σ : Type} [Store σ]

def load (g : Grammar) (files : σ) (path : Path) : Except ParseFailure SourceFile :=
  let fail (p : ParseProblem) : ParseFailure := ⟨path.toString, p.message⟩
  match Store.read files path with
  | .error e => .error (fail (.unreadable e.message))
  | .ok source => (g.parseFile path source).mapError fail

def failures (loaded : List (Except ParseFailure SourceFile)) : List ParseFailure :=
  loaded.filterMap fun
    | .error f => some f
    | .ok _ => none

def sources (loaded : List (Except ParseFailure SourceFile)) : List SourceFile :=
  loaded.filterMap (·.toOption)

def skipNote (f : ParseFailure) : String :=
  s!"[yellow]⚠ Skipping {Markup.escape f.file}: {Markup.escape f.message}[/yellow]"

def indexingNote (count : Nat) (root : Path) : String :=
  s!"🔍 Indexing {count} files under {Markup.escape root.toString}"

structure Found where
  paths : List Path
  index : Index
  notes : List String

def indexProject (g : Grammar) (files : σ) (root : Path) (options : AnalysisOptions)
    (discovery : Discovery) (verbose : Bool) : Found :=
  let paths := Store.find files root discovery
  let loaded := paths.map (load g files)
  { paths
    index := Index.build options (sources loaded) (failures loaded)
    notes :=
      if verbose then indexingNote paths.length root :: (failures loaded).map skipNote else [] }

end Analysis

/-- Where a backup was written and what it holds. -/
structure BackupInfo where
  location : String
  fileCount : Nat
  createdAt : String
  files : List String := []
  deriving DecidableEq, Repr

def BackupInfo.toJson (b : BackupInfo) : Json :=
  .object [("location", .text b.location), ("fileCount", .nat b.fileCount),
    ("createdAt", .text b.createdAt)]

/-- A backup that could not be made: the reason, and the place where it was to be. -/
structure BackupFailure where
  message : String
  place : String
  deriving DecidableEq, Repr

namespace Surgery

variable {σ : Type} [Store σ]

def isSupported : Operation → Bool
  | .unsupported _ => false
  | _ => true

def warnings (o : SurgeryOptions) : List String :=
  (o.operations.filter (! isSupported ·)).map fun op =>
    s!"Operation '{op.name}' not supported in safe mode"

def warningNote (warning : String) : String := s!"[yellow]⚠ {Markup.escape warning}[/yellow]"

def crashNote (file : String) (c : Crash) : String :=
  s!"[red]❌ Internal error on {Markup.escape file}: {Markup.escape c.message}[/red]"

def crashed (file : String) (c : Crash) : Outcome :=
  .rolledBack file .internalError s!"{c.className}: {c.message}"

/-- One file's mutation, with a crash turned into an outcome. -/
def transaction (g : Grammar) (o : SurgeryOptions) (file : String) (issues : List Issue)
    (files : σ) : Run σ Outcome :=
  let r := Mutation.run g o (.ofString file) issues files
  match r.result with
  | .ok outcome => ⟨outcome, r.files, r.notes⟩
  | .error c => ⟨crashed file c, r.files, r.notes ++ [crashNote file c]⟩

def transactions (g : Grammar) (o : SurgeryOptions) :
    List (String × List Issue) → σ → Run σ (List Outcome)
  | [], files => ⟨[], files, []⟩
  | (file, issues) :: rest, files =>
    let first := transaction g o file issues files
    let others := transactions g o rest first.files
    ⟨first.result :: others.result, others.files, first.notes ++ others.notes⟩

def orderedGroups (issues : List Issue) : List (String × List Issue) :=
  (Target.byFile issues).mergeSort fun a b => (compare a.1 b.1).isLE

def needsBackup (o : SurgeryOptions) : Bool := o.backup && ! o.dryRun

def backupNotes (o : SurgeryOptions) (info : BackupInfo) : List String :=
  if o.verbose then [s!"💾 Backup created at {Markup.escape info.location}"] else []

/-- Takes the backup that the policy asks for. -/
def preflight (o : SurgeryOptions) (backup : σ → Except BackupFailure BackupInfo × σ) (files : σ) :
    Run σ (Except BackupFailure Json) :=
  if needsBackup o then
    match backup files with
    | (.error e, files) => ⟨.error e, files, []⟩
    | (.ok info, files) => ⟨.ok info.toJson, files, backupNotes o info⟩
  else ⟨.ok .null, files, []⟩

def operate (g : Grammar) (o : SurgeryOptions) (backup : σ → Except BackupFailure BackupInfo × σ)
    (issues : List Issue) (files : σ) : Run σ (Except BackupFailure SurgeryReport) :=
  let warned := (warnings o).map warningNote
  let before := preflight o backup files
  match before.result with
  | .error e => ⟨.error e, before.files, warned ++ before.notes⟩
  | .ok taken =>
    let r := transactions g o (orderedGroups issues) before.files
    ⟨.ok (.ofOutcomes o r.result taken (warnings o)), r.files, warned ++ before.notes ++ r.notes⟩

end Surgery

end Deadwood
