import Deadwood.Surgery.Options
import Deadwood.Json.Basic

/-!
Outcomes: what became of one file, and the report that all of them add up to.
-/
namespace Deadwood

inductive RollbackReason
  | generationError
  | tooAggressive
  | syntaxError
  | internalError
  deriving DecidableEq, Repr

namespace RollbackReason

def name : RollbackReason → String
  | .generationError => "generation_error"
  | .tooAggressive => "too_aggressive"
  | .syntaxError => "syntax_error"
  | .internalError => "internal_error"

def ofName? : String → Option RollbackReason
  | "generation_error" => some .generationError
  | "too_aggressive" => some .tooAggressive
  | "syntax_error" => some .syntaxError
  | "internal_error" => some .internalError
  | _ => none

end RollbackReason

inductive Outcome
  | committed (file : String) (linesRemoved : Int) (nodesRemoved : Nat) (names : List String)
      (dryRun : Bool)
  | rolledBack (file : String) (reason : RollbackReason) (message : String)
  | skipped (file : String) (message : String)
  | noOp (file : String)
  deriving DecidableEq, Repr

namespace Outcome

def file : Outcome → String
  | .committed f _ _ _ _ | .rolledBack f _ _ | .skipped f _ | .noOp f => f

def status : Outcome → String
  | .committed _ _ _ _ _ => "committed"
  | .rolledBack _ _ _ => "rolled_back"
  | .skipped _ _ => "skipped"
  | .noOp _ => "no_op"

def skipReason : String := "parse_error"

/-- Why a file was left as it was, if there is a reason. -/
def reason? : Outcome → Option String
  | .rolledBack _ r _ => some r.name
  | .skipped _ _ => some skipReason
  | _ => none

def details : Outcome → List (String × Json)
  | .committed _ lines nodes names dryRun =>
    [("linesRemoved", .int lines), ("nodesRemoved", .nat nodes), ("removedNames", .texts names),
      ("written", .bool ! dryRun)]
  | .rolledBack _ r message => [("reason", .text r.name), ("message", .text message)]
  | .skipped _ message => [("reason", .text skipReason), ("message", .text message)]
  | .noOp _ => []

def toJson (o : Outcome) : Json :=
  .object ([("file", .text o.file), ("status", .text o.status)] ++ o.details)

def isInternalError : Outcome → Bool
  | .rolledBack _ .internalError _ => true
  | _ => false

/-- The error that an outcome reports: its type and message. -/
def error? : Outcome → Option (String × String)
  | .skipped _ message => some (skipReason, message)
  | .rolledBack _ r message => if r = .tooAggressive then none else some (r.name, message)
  | _ => none

end Outcome

structure Statistics where
  filesAnalyzed : Nat := 0
  filesModified : Nat := 0
  filesSkipped : Nat := 0
  syntaxErrors : Nat := 0
  modificationsAttempted : Nat := 0
  modificationsSuccessful : Nat := 0
  modificationsFailed : Nat := 0
  validationsFailed : Nat := 0
  rejectedTooAggressive : Nat := 0
  nodesRemoved : Nat := 0
  linesRemoved : Int := 0
  deriving DecidableEq, Repr

namespace Statistics

def add (a b : Statistics) : Statistics :=
  { filesAnalyzed := a.filesAnalyzed + b.filesAnalyzed
    filesModified := a.filesModified + b.filesModified
    filesSkipped := a.filesSkipped + b.filesSkipped
    syntaxErrors := a.syntaxErrors + b.syntaxErrors
    modificationsAttempted := a.modificationsAttempted + b.modificationsAttempted
    modificationsSuccessful := a.modificationsSuccessful + b.modificationsSuccessful
    modificationsFailed := a.modificationsFailed + b.modificationsFailed
    validationsFailed := a.validationsFailed + b.validationsFailed
    rejectedTooAggressive := a.rejectedTooAggressive + b.rejectedTooAggressive
    nodesRemoved := a.nodesRemoved + b.nodesRemoved
    linesRemoved := a.linesRemoved + b.linesRemoved }

instance : Add Statistics := ⟨add⟩

def toJson (s : Statistics) : Json :=
  .object [("filesAnalyzed", .nat s.filesAnalyzed), ("filesModified", .nat s.filesModified),
    ("filesSkipped", .nat s.filesSkipped), ("syntaxErrors", .nat s.syntaxErrors),
    ("modificationsAttempted", .nat s.modificationsAttempted),
    ("modificationsSuccessful", .nat s.modificationsSuccessful),
    ("modificationsFailed", .nat s.modificationsFailed),
    ("validationsFailed", .nat s.validationsFailed),
    ("rejectedTooAggressive", .nat s.rejectedTooAggressive), ("nodesRemoved", .nat s.nodesRemoved),
    ("linesRemoved", .int s.linesRemoved)]

def ofRollback : RollbackReason → Statistics
  | .syntaxError => { filesAnalyzed := 1, modificationsAttempted := 1, validationsFailed := 1 }
  | .tooAggressive =>
    { filesAnalyzed := 1, modificationsAttempted := 1, rejectedTooAggressive := 1 }
  | .generationError | .internalError =>
    { filesAnalyzed := 1, modificationsAttempted := 1, modificationsFailed := 1 }

def ofOutcome : Outcome → Statistics
  | .committed _ lines nodes _ _ =>
    { filesAnalyzed := 1, filesModified := 1, modificationsAttempted := 1,
      modificationsSuccessful := 1, nodesRemoved := nodes, linesRemoved := lines }
  | .skipped _ _ => { filesAnalyzed := 1, filesSkipped := 1, syntaxErrors := 1 }
  | .rolledBack _ r _ => ofRollback r
  | .noOp _ => { filesAnalyzed := 1 }

def ofOutcomes (outcomes : List Outcome) : Statistics :=
  outcomes.foldl (fun s o => s + ofOutcome o) {}

end Statistics

/-- Penalties for failures and bonuses for safety features, kept between 0 and 100. -/
def safetyScore (s : Statistics) (errors : Nat) (o : SurgeryOptions) : Int :=
  let penalty : Nat :=
    10 * s.syntaxErrors + 5 * s.modificationsFailed + 5 * s.validationsFailed + 2 * errors
  let bonus : Nat :=
    (if o.validateSyntax then 10 else 0) + (if o.conservative then 10 else 0) +
      (if o.dryRun then 20 else 0)
  max 0 (min 100 (100 - penalty + bonus))

theorem safetyScore_bounds (s : Statistics) (errors : Nat) (o : SurgeryOptions) :
    0 ≤ safetyScore s errors o ∧ safetyScore s errors o ≤ 100 := by
  unfold safetyScore; dsimp only; omega

structure SurgeryReport where
  options : SurgeryOptions
  statistics : Statistics
  outcomes : List Outcome
  warnings : List String := []
  backup : Json := .null
  deriving Repr

namespace SurgeryReport

def ofOutcomes (options : SurgeryOptions) (outcomes : List Outcome) (backup : Json)
    (warnings : List String) : SurgeryReport :=
  let outcomes := outcomes.mergeSort fun a b => (compare a.file b.file).isLE
  { options, statistics := .ofOutcomes outcomes, outcomes, warnings, backup }

def errors (r : SurgeryReport) : List (String × String × String) :=
  r.outcomes.filterMap fun o => o.error?.map (o.file, ·)

def isSuccess (r : SurgeryReport) : Bool := ! r.outcomes.any Outcome.isInternalError

def mode (r : SurgeryReport) : String := if r.options.dryRun then "DRY_RUN" else "LIVE"

def score (r : SurgeryReport) : Int := safetyScore r.statistics r.errors.length r.options

/-- What to do after files were changed. -/
def advice : List String := [
  "🧪 Run your test suite immediately",
  "🔍 Review the changes in your version control system",
  "🏗️ Rebuild your project to ensure everything compiles",
  "💾 Keep the backup until you're certain everything works"]

def recommendations (r : SurgeryReport) : List String :=
  if ! r.options.dryRun ∧ 0 < r.statistics.filesModified then advice else []

def errorJson (e : String × String × String) : Json :=
  .object [("file", .text e.1), ("error", .text e.2.2), ("type", .text e.2.1)]

def nonEmpty (name : String) (texts : List String) : List (String × Json) :=
  if texts.isEmpty then [] else [(name, .texts texts)]

def toJson (r : SurgeryReport) : Json :=
  .object <|
    [("success", .bool r.isSuccess), ("mode", .text r.mode), ("statistics", r.statistics.toJson),
      ("errors", .list (r.errors.map errorJson)),
      ("safety", .object [("validateSyntax", .bool r.options.validateSyntax),
        ("conservative", .bool r.options.conservative),
        ("maxChangesPerFile", .int r.options.maxChanges)]),
      ("summary", .object [("totalFiles", .nat r.statistics.filesAnalyzed),
        ("successfullyModified", .nat r.statistics.filesModified),
        ("skippedDueToErrors", .nat r.statistics.filesSkipped),
        ("syntaxErrorsPrevented", .nat r.statistics.validationsFailed),
        ("safetyScore", .int r.score)]),
      ("files", .list (r.outcomes.map Outcome.toJson)), ("backup", r.backup)] ++
    nonEmpty "warnings" r.warnings ++ nonEmpty "recommendations" r.recommendations

end SurgeryReport

end Deadwood
