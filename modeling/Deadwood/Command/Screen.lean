import Deadwood.Analysis.Report
import Deadwood.Files.Discovery
import Deadwood.Surgery.Outcome
import Deadwood.Text.Markup

/-!
What the commands show: lines of marked-up text, tables and panels. Files are named by their paths
below the project.
-/
namespace Deadwood

inductive Shown
  | line (text : String)
  | table (title : String) (columns : List String) (rows : List (List String))
  | panel (title text : String)
  deriving DecidableEq, Repr

namespace Shown

/-- A path below the project, or the path as it is if it lies elsewhere. -/
def path (root : Path) (file : String) : String :=
  match (Path.ofString file).relativeTo? root with
  | some parts => Discovery.below parts
  | none => file

/-- A table that is left out when it has no rows. -/
def rows? {α : Type} (title : String) (columns : List String) (row : α → List String)
    (items : List α) : List Shown :=
  if items.isEmpty then [] else [.table title columns (items.map row)]

/-- The text of an item where markup and frames are not drawn. -/
def plain : Shown → String
  | .line text => text
  | .table title columns rows =>
    "\n".intercalate (title :: (columns :: rows).map (" | ".intercalate ·))
  | .panel title text => title ++ "\n" ++ text

end Shown

namespace AnalysisReport

variable (root : Path)

def unusedSymbols (r : AnalysisReport) : List Symbol :=
  ((r.ofKind .unusedFunction ++ r.ofKind .unusedImport).filterMap Issue.unusedSymbol?).mergeSort
    fun a b => ((compare a.file b.file).then (compare a.line b.line)).isLE

def symbolRow (s : Symbol) : List String :=
  [s.name, s.kind.name, Shown.path root s.file, toString s.line]

def groups (r : AnalysisReport) : List DuplicateGroup :=
  r.issues.filterMap fun
    | .duplicateGroup g => some g
    | _ => none

def locationText (l : Location) : String :=
  s!"{Shown.path root l.file}:{l.startLine}-{l.endLine}"

def groupRow (g : DuplicateGroup) : List String :=
  [toString g.locations.length, "\n".intercalate (g.locations.map (locationText root)),
    Markup.escape g.fingerprint.excerpt]

def handlers (r : AnalysisReport) : List ChannelFact :=
  r.issues.filterMap fun
    | .unreferencedHandler f => some f
    | _ => none

def handlerRow (f : ChannelFact) : List String :=
  [Markup.escape f.channel, Shown.path root f.file, toString f.line]

def deadPaths (r : AnalysisReport) : List DeadCode :=
  r.issues.filterMap fun
    | .deadCodePath d => some d
    | _ => none

def deadRow (d : DeadCode) : List String :=
  [Shown.path root d.file, toString d.line, d.reason.name, Markup.escape d.code]

/-- The most complex first. -/
def complexFunctions (r : AnalysisReport) : List ComplexFunction :=
  (r.issues.filterMap fun
    | .complexFunction c => some c
    | _ => none).mergeSort fun a b => b.complexity ≤ a.complexity

def complexRow (c : ComplexFunction) : List String :=
  [Markup.escape c.name, toString c.complexity, Shown.path root c.file, toString c.line]

def failureLines (r : AnalysisReport) : List Shown :=
  if r.failures.isEmpty then []
  else .line s!"[yellow]⚠ {r.failures.length} file(s) skipped due to parse errors[/yellow]" ::
    r.failures.map fun f =>
      .line s!"  • {Markup.escape (Shown.path root f.file)}: {Markup.escape f.message}"

def adviceLine (a : Recommendation) : Shown :=
  let fixable := if a.autoFixable then ", auto-fixable" else ""
  .line s!"• {Markup.escape a.message} ({a.priority} priority{fixable})"

def shown (r : AnalysisReport) : List Shown :=
  [.line s!"[bold blue]Analyzed {r.fileCount} files[/bold blue] ({r.issues.length} issues)\n"] ++
    Shown.rows? "Unused Symbols" ["Symbol", "Kind", "File", "Line"] (symbolRow root)
      r.unusedSymbols ++
    Shown.rows? "Duplicate Code" ["Copies", "Locations", "Block"] (groupRow root) r.groups ++
    Shown.rows? "Unreferenced IPC Handlers" ["Channel", "File", "Line"] (handlerRow root)
      r.handlers ++
    Shown.rows? "Unreachable Code" ["File", "Line", "Reason", "Code"] (deadRow root) r.deadPaths ++
    Shown.rows? "Complex Functions" ["Function", "Complexity", "File", "Line"] (complexRow root)
      r.complexFunctions ++
    r.failureLines root ++
    (if r.issues.isEmpty then [.line "[bold green]✓ No issues found.[/bold green]"] else []) ++
    r.recommendations.map adviceLine

end AnalysisReport

namespace SurgeryReport

variable (root : Path)

def detail : Outcome → String
  | .committed _ lines nodes _ _ => s!"{nodes} removed, {lines} lines"
  | o => o.reason?.getD ""

def outcomeRow (o : Outcome) : List String := [Shown.path root o.file, o.status, detail o]

def verdictTitle (r : SurgeryReport) : String :=
  if r.isSuccess then "[bold green]✅ Success[/bold green]" else "[bold red]❌ Failed[/bold red]"

def summaryText (r : SurgeryReport) : String :=
  s!"Files analyzed: {r.statistics.filesAnalyzed}\n" ++
    s!"Modified: {r.statistics.filesModified}\n" ++
    s!"Skipped (parse errors): {r.statistics.filesSkipped}\n" ++
    s!"Syntax errors prevented: {r.statistics.validationsFailed}\n" ++
    s!"Safety score: {r.score}/100"

def backupLines (r : SurgeryReport) : List Shown :=
  match r.backup.field? "location" with
  | some (.text place) => [.line s!"💾 Backup: {Markup.escape place}"]
  | _ => []

def shown (r : SurgeryReport) : List Shown :=
  Shown.rows? s!"Surgery Report ({r.mode})" ["File", "Outcome", "Detail"] (outcomeRow root)
      r.outcomes ++
    [.panel r.verdictTitle r.summaryText] ++
    r.backupLines ++
    r.warnings.map (fun w => .line s!"[yellow]⚠ {Markup.escape w}[/yellow]") ++
    r.recommendations.map (fun a => .line (Markup.escape a))

end SurgeryReport

end Deadwood
