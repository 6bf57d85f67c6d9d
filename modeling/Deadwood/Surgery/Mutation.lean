import Deadwood.Files.Store
import Deadwood.Removal.Plan
import Deadwood.Surgery.Outcome
import Deadwood.Surgery.Target
import Deadwood.Syntax.Source
import Deadwood.Text.Markup

/-!
The removal of targeted symbols from one file. What was read is parsed, planned, generated and
checked; only a verdict to commit leads to a write, and every gate that fails leaves the file as it
was. A verdict depends on the content alone, so a mutation is a read, a verdict and at most one
write.
-/
namespace Deadwood

def lineCount (text : Bytes) : Nat := text.count Bytes.lineFeed + 1

/-- The share of lines that are gone, as a double. -/
def reductionRatio (before after : Int) : Binary64 :=
  if before ≤ 0 then .zero false
  else .roundQuotient (decide (before < after)) (before - after).natAbs before.toNat

/-- More lines removed than the policy allows. -/
structure Excess where
  before : Int
  after : Int
  ratio : Binary64
  threshold : Binary64
  deriving DecidableEq, Repr

def Excess.message (x : Excess) : String :=
  s!"Too aggressive: {x.before - x.after} of {x.before} lines removed " ++
    s!"({x.ratio.percent} > {x.threshold.percent})"

inductive Rejection
  | conflict (conflict : Edit.Conflict)
  | split (fault : Utf8.Fault)
  | excess (excess : Excess)
  | invalid (problem : ParseProblem)
  deriving DecidableEq, Repr

namespace Rejection

def reason : Rejection → RollbackReason
  | .conflict _ | .split _ => .generationError
  | .excess _ => .tooAggressive
  | .invalid _ => .syntaxError

def message : Rejection → String
  | .conflict c => c.message
  | .split fault => s!"Edits split a multi-byte character: {fault.message}"
  | .excess x => x.message
  | .invalid problem => s!"Syntax validation failed: {problem.message}"

end Rejection

inductive Verdict
  | skip (problem : ParseProblem)
  | leave
  | reject (rejection : Rejection)
  | commit (content : Bytes) (linesRemoved : Int) (nodesRemoved : Nat) (names : List String)
  deriving DecidableEq, Repr

/-- What stops a mutation short of an outcome. -/
inductive Crash
  | write (error : FileError)
  | rebuild (fault : Utf8.Fault)
  deriving DecidableEq, Repr

namespace Crash

def className : Crash → String
  | .write e => e.className
  | .rebuild _ => "UnicodeDecodeError"

def message : Crash → String
  | .write e => e.message
  | .rebuild fault => fault.message

end Crash

namespace Mutation

def load (g : Grammar) (path : Path) (content : Except FileError Bytes) :
    Except ParseProblem (Language × SourceFile) := do
  let some language := Language.ofPath? path | .error (.unsupported path.suffix)
  let source ← content.mapError fun e => .unreadable e.message
  let _ ← (Utf8.decode source).mapError .undecodable
  return (language, ⟨path, source, ← g.parse language source⟩)

/-- The edited text, which has to be text. -/
def generate (source : Bytes) (edits : List Edit) : Except Rejection Bytes := do
  let content ← (Edit.apply source edits).mapError .conflict
  let _ ← (Utf8.decode content).mapError .split
  return content

def checkReduction (o : SurgeryOptions) (before after : Int) : Except Excess Unit :=
  let ratio := reductionRatio before after
  if o.conservative ∧ Binary64.lt o.threshold ratio then .error ⟨before, after, ratio, o.threshold⟩
  else .ok ()

def validate (g : Grammar) (o : SurgeryOptions) (language : Language) (content : Bytes) :
    Except Rejection Unit :=
  if o.validateSyntax then ((g.parse language content).map fun _ => ()).mapError .invalid
  else .ok ()

def gates (g : Grammar) (o : SurgeryOptions) (language : Language) (source : Bytes) (plan : Plan) :
    Except Rejection Bytes := do
  let content ← generate source plan.edits
  (checkReduction o (lineCount source) (lineCount content)).mapError .excess
  validate g o language content
  return content

def targets (o : SurgeryOptions) (issues : List Issue) : Targets :=
  Target.ofIssues issues o.budget o.operations

def verdictOf (g : Grammar) (o : SurgeryOptions) (issues : List Issue) (language : Language)
    (file : SourceFile) : Except Utf8.Fault Verdict :=
  let targets := targets o issues
  if targets.isEmpty then .ok .leave
  else match Plan.ofTree targets file.source file.tree with
    | .error fault => .error fault
    | .ok plan =>
      if plan.edits.isEmpty then .ok .leave
      else match gates g o language file.source plan with
        | .error r => .ok (.reject r)
        | .ok content =>
          .ok (.commit content (lineCount file.source - lineCount content) plan.nodesRemoved
            plan.names)

def verdict (g : Grammar) (o : SurgeryOptions) (path : Path) (issues : List Issue)
    (content : Except FileError Bytes) : Except Utf8.Fault Verdict :=
  match load g path content with
  | .error p => .ok (.skip p)
  | .ok (language, file) => verdictOf g o issues language file

def outcome (o : SurgeryOptions) (file : String) : Verdict → Outcome
  | .skip problem => .skipped file problem.message
  | .leave => .noOp file
  | .reject r => .rolledBack file r.reason r.message
  | .commit _ lines nodes names => .committed file lines nodes names o.dryRun

/-- The content to write, unless the run is dry. -/
def written? (o : SurgeryOptions) : Verdict → Option Bytes
  | .commit content _ _ _ => if o.dryRun then none else some content
  | _ => none

/-- The progress line of a verdict. -/
def note? (o : SurgeryOptions) (file : String) (v : Verdict) : Option String :=
  let name := Markup.escape file
  if ! o.verbose then none
  else match v with
    | .skip problem => some s!"  ⚠ Skipping {name} - {Markup.escape problem.message}"
    | .leave => none
    | .reject r => some s!"  ↩ Rolled back {name} - {Markup.escape r.message}"
    | .commit _ _ nodes _ =>
      let verb := if o.dryRun then "Would modify" else "Modified"
      some s!"  ✅ {verb} {name} ({nodes} removed)"

end Mutation

/-- A result together with the files it leaves and the lines it reports on the way. -/
structure Run (σ α : Type) where
  result : α
  files : σ
  notes : List String := []

namespace Mutation

variable {σ : Type} [Store σ]

def finish (o : SurgeryOptions) (path : Path) (files : σ) (v : Verdict) :
    Run σ (Except Crash Outcome) :=
  let name := path.toString
  let done (files : σ) : Run σ (Except Crash Outcome) :=
    ⟨.ok (outcome o name v), files, (note? o name v).toList⟩
  match written? o v with
  | none => done files
  | some content =>
    match Store.write files path content with
    | (.ok (), files) => done files
    | (.error e, files) => ⟨.error (.write e), files, []⟩

def run (g : Grammar) (o : SurgeryOptions) (path : Path) (issues : List Issue) (files : σ) :
    Run σ (Except Crash Outcome) :=
  match verdict g o path issues (Store.read files path) with
  | .error fault => ⟨.error (.rebuild fault), files, []⟩
  | .ok v => finish o path files v

end Mutation

end Deadwood
