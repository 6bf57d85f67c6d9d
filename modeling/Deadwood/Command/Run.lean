import Deadwood.Backup.Create
import Deadwood.Backup.Restore
import Deadwood.Command.Basic
import Deadwood.Command.Prompt
import Deadwood.Command.Screen
import Deadwood.Settings.Environment

/-!
Running the commands. A command works on a machine, reads lines and shows what it finds; it ends
with an exit code, or with an error that it has no answer to.
-/
namespace Deadwood.Command

inductive Ending
  | exit (code : Nat)
  | usage (error : UsageError)
  | crash (className message : String)
  deriving DecidableEq, Repr

def Ending.code : Ending → Nat
  | .exit code => code
  | .usage _ => 2
  | .crash _ _ => 1

/-- What a command has done so far; `waiting` if the input ended at a question. -/
structure State where
  machine : Machine
  input : List String
  screen : List Shown := []
  notes : List String := []
  output : String := ""
  waiting : Bool := false

/-- Steps of a command; an ending stops it and keeps what was done so far. -/
abbrev Act := ExceptT Ending (StateM State)

/-- What every command can refer to. -/
structure Setting where
  grammar : Grammar
  environment : Environment

def versionText : String := "1.0.0"

def usage : String :=
  "Usage: deadwood COMMAND [ARGS]\n\nCommands:\n" ++
    "  audit [PROJECT]\n  surgery [PROJECT]\n  restore BACKUP\n  version\n"

def stop {α : Type} (code : Nat) : Act α := throw (.exit code)

def display (items : List Shown) : Act Unit :=
  modify fun s => { s with screen := s.screen ++ items }

def say (text : String) : Act Unit := display [.line text]

def report (notes : List String) : Act Unit := modify fun s => { s with notes := s.notes ++ notes }

def write (text : String) : Act Unit := modify fun s => { s with output := s.output ++ text }

def failWith {α : Type} (heading message : String) (code : Nat) : Act α := do
  say s!"[bold red]{heading}[/bold red] {Markup.escape message}"
  stop code

/-- Goes on only if the question is answered with yes. -/
def confirm (question : String) : Act Unit := do
  let asked := Prompt.ask question (← get).input
  modify fun s => { s with input := asked.left, waiting := asked.answer.isNone }
  write asked.output
  if asked.answer = some true then return else stop 1

def settings {α : Type} (r : Except SettingProblem α) : Act α :=
  match r with
  | .ok a => return a
  | .error p => failWith "Configuration error:" p.message 1

/-- Looks at the disk, where an error has no answer. -/
def look {α : Type} (f : Disk → Except FileError α) : Act α := do
  match f (← get).machine.disk with
  | .ok a => return a
  | .error e => throw (.crash e.className e.message)

def project (text : String) : Act Path := do
  let root ← look (·.resolve (.ofString text))
  if ((← look (·.stat root)).map Entry.isDirectory).getD false then return root
  else failWith "Error:" s!"Project path does not exist: {root}" 1

def analyze (s : Setting) (root : Path) (backupDir : String) (verbose : Bool) :
    Act AnalysisReport := do
  let options ← settings (Settings.analysis s.environment)
  let discovery := ({} : Discovery).alsoIgnoring (Path.ofString backupDir).name
  let found := Analysis.indexProject s.grammar (← get).machine root options discovery verbose
  report found.notes
  return .ofIndex found.index

def document (j : Json) : Act Unit := write (j.pretty true ++ "\n")

def runAudit (s : Setting) (c : AuditCommand) : Act Unit := do
  let root ← project c.project
  settings (Settings.check s.environment)
  let r ← analyze s root (Settings.backupDir s.environment) c.verbose
  if c.json then document r.toJson else display (r.shown root)

/-- The policy in force, with what the arguments say in place of the settings. -/
def policy (s : Setting) (c : SurgeryCommand) : Act SurgeryOptions := do
  settings (Settings.check s.environment)
  let o ← settings (Settings.surgery s.environment)
  match o.withOverrides c.overrides with
  | .ok o => return o
  | .error p => failWith "Error:" p.message 1

def candidates (r : AnalysisReport) : Nat := r.count .unusedFunction + r.count .unusedImport

/-- Makes sure that files may be changed. -/
def allow (c : SurgeryCommand) (r : AnalysisReport) : Act Unit := do
  if c.dryRun || c.yes then return
  if c.json then
    say "[bold red]Error:[/bold red] --json with a live run requires --yes"
    stop 1
  say s!"[bold yellow]{candidates r} unused symbol(s) are candidates for removal.[/bold yellow]"
  confirm "Modify files in place?"

def operate (s : Setting) (o : SurgeryOptions) (root : Path) (r : AnalysisReport) :
    Act SurgeryReport := do
  let backup := Backup.create (.ofString o.backupDir) root
  let run := Surgery.operate s.grammar o backup r.issues (← get).machine
  modify fun s => { s with machine := run.files }
  report run.notes
  match run.result with
  | .ok r => return r
  | .error e => failWith "Backup failed, no files were touched:" e.message 2

def runSurgery (s : Setting) (c : SurgeryCommand) : Act Unit := do
  let root ← project c.project
  let o ← policy s c
  let analysis ← analyze s root o.backupDir c.verbose
  allow c analysis
  let r ← operate s o root analysis
  if c.json then document r.toJson else display (r.shown root)
  if r.isSuccess then return else stop 1

/-- A place to restore into; an empty text names none. -/
def into? (c : RestoreCommand) : Option Path :=
  (c.into.filter (· ≠ "")).map .ofString

def runRestore (c : RestoreCommand) : Act Unit := do
  if ! c.yes then confirm s!"Overwrite project files with {c.backup}?"
  let (r, m) := (← get).machine.work (Backup.restore (.ofString c.backup) (into? c))
  modify fun s => { s with machine := m }
  match r with
  | .ok paths => say s!"[bold green]✓ Restored {paths.length} file(s)[/bold green]"
  | .error e =>
    if e.isExpected then failWith "Restore failed:" e.message 1
    else throw (.crash e.className e.message)

def act (s : Setting) : Command → Act Unit
  | .help => write usage
  | .version => write (versionText ++ "\n")
  | .audit c => runAudit s c
  | .surgery c => runSurgery s c
  | .restore c => runRestore c

/-- Everything that a command line leads to. -/
structure Response where
  ending : Ending
  final : State

def run (s : Setting) (args : List String) (input : String) (m : Machine) : Response :=
  let start : State := { machine := m, input := Prompt.lines input }
  match ofArguments args with
  | .error e => ⟨.usage e, start⟩
  | .ok c =>
    match act s c start with
    | (.ok (), final) => ⟨.exit 0, final⟩
    | (.error e, final) => ⟨e, final⟩

end Deadwood.Command
