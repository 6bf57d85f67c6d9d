import Deadwood.Command.Arguments
import Deadwood.Command.Value
import Deadwood.Surgery.Options

/-!
The commands and the arguments that each takes.
-/
namespace Deadwood

structure AuditCommand where
  project : String
  json : Bool
  verbose : Bool
  deriving DecidableEq, Repr

structure SurgeryCommand where
  project : String
  overrides : SurgeryOptions.Overrides
  dryRun : Bool
  json : Bool
  yes : Bool
  verbose : Bool

structure RestoreCommand where
  backup : String
  into : Option String
  yes : Bool
  deriving DecidableEq, Repr

inductive Command
  | help
  | version
  | audit (c : AuditCommand)
  | surgery (c : SurgeryCommand)
  | restore (c : RestoreCommand)

namespace Command

def helpForm : OptionForm := ⟨"help", ["--help"], false⟩
def jsonForm : OptionForm := ⟨"json", ["--json"], false⟩
def verboseForm : OptionForm := ⟨"verbose", ["--verbose", "-v"], false⟩
def yesForm : OptionForm := ⟨"yes", ["--yes", "-y"], false⟩

def auditForms : List OptionForm := [helpForm, jsonForm, verboseForm]

def surgeryForms : List OptionForm := [
  helpForm, jsonForm, verboseForm, yesForm,
  ⟨"dry-run", ["--dry-run"], false⟩,
  ⟨"no-conservative", ["--no-conservative"], false⟩,
  ⟨"threshold", ["--threshold", "-t"], true⟩,
  ⟨"max-changes", ["--max-changes"], true⟩,
  ⟨"no-validate", ["--no-validate"], false⟩,
  ⟨"backup", ["--backup"], false⟩,
  ⟨"no-backup", ["--no-backup"], false⟩,
  ⟨"operation", ["--operation", "-o"], true⟩]

def restoreForms : List OptionForm := [
  helpForm, yesForm, ⟨"project-root", ["--project-root"], true⟩]

def versionForms : List OptionForm := [helpForm]

/-- The last value of a numeric option. -/
def number {α : Type} (a : Arguments) (name : String) (read? : String → Option α) :
    Except UsageError (Option α) :=
  match a.last? name with
  | none => .ok none
  | some text =>
    match read? text with
    | some x => .ok (some x)
    | none => .error (.badValue ("--" ++ name) text)

/-- The one word that may stand among the arguments. -/
def word (a : Arguments) : Except UsageError (Option String) :=
  match a.words with
  | [] => .ok none
  | [w] => .ok (some w)
  | _ :: extra :: _ => .error (.argumentExtra extra)

def audit? (a : Arguments) : Except UsageError Command := do
  return .audit {
    project := (← word a).getD "."
    json := a.has "json"
    verbose := a.has "verbose" }

def overrides (a : Arguments) : Except UsageError SurgeryOptions.Overrides := do
  let operations := a.values "operation"
  return {
    dryRun := some (a.has "dry-run")
    conservative := if a.has "no-conservative" then some false else none
    threshold := ← number a "threshold" OptionValue.double?
    validateSyntax := if a.has "no-validate" then some false else none
    maxChanges := ← number a "max-changes" OptionValue.int?
    backup := some ((a.switch? "backup" "no-backup").getD true)
    operations := if operations.isEmpty then none else some (operations.map Operation.ofName)
    verbose := some (a.has "verbose") }

def surgery? (a : Arguments) : Except UsageError Command := do
  return .surgery {
    overrides := ← overrides a
    project := (← word a).getD "."
    dryRun := a.has "dry-run"
    json := a.has "json"
    yes := a.has "yes"
    verbose := a.has "verbose" }

def restore? (a : Arguments) : Except UsageError Command := do
  match ← word a with
  | none => .error (.argumentMissing "BACKUP_PATH")
  | some backup => return .restore ⟨backup, a.last? "project-root", a.has "yes"⟩

def version? (a : Arguments) : Except UsageError Command :=
  match a.words with
  | [] => .ok .version
  | w :: _ => .error (.argumentExtra w)

/-- Help comes before every other use of the arguments but not before an unknown option. -/
def read (forms : List OptionForm) (make : Arguments → Except UsageError Command)
    (args : List String) : Except UsageError Command := do
  let a ← Arguments.split forms true args
  if a.has "help" then return .help else make a

def ofArguments (args : List String) : Except UsageError Command := do
  let a ← Arguments.split [helpForm] false args
  if a.has "help" then return .help
  match a.words with
  | [] => .error .noCommand
  | "audit" :: rest => read auditForms audit? rest
  | "surgery" :: rest => read surgeryForms surgery? rest
  | "restore" :: rest => read restoreForms restore? rest
  | "version" :: rest => read versionForms version? rest
  | name :: _ => .error (.unknownCommand name)

end Command

end Deadwood
