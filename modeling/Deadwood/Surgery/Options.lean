import Deadwood.Analysis.Options
import Deadwood.Number.Binary64

/-!
The policy of a surgery run: what it may remove, how much of a file, and how careful it is.
-/
namespace Deadwood

inductive Operation
  | unusedImports
  | unusedFunctions
  | unsupported (name : String)
  deriving DecidableEq, Repr

namespace Operation

def name : Operation → String
  | .unusedImports => "unused-imports"
  | .unusedFunctions => "unused-functions"
  | .unsupported name => name

def ofName : String → Operation
  | "unused-imports" => .unusedImports
  | "unused-functions" => .unusedFunctions
  | name => .unsupported name

theorem name_ofName (text : String) : (ofName text).name = text := by
  unfold ofName; split <;> rfl

end Operation

def defaultBackupDir : String := ".script-doctor-backups"

structure SurgeryOptions where
  dryRun : Bool := false
  conservative : Bool := true
  threshold : Binary64 := .threeTenths
  validateSyntax : Bool := true
  maxChanges : Int := 10
  backup : Bool := true
  backupDir : String := defaultBackupDir
  operations : List Operation := [.unusedImports, .unusedFunctions]
  verbose : Bool := false
  deriving Repr

namespace SurgeryOptions

/-- Neither below zero nor above one. -/
def isShare (x : Binary64) : Bool := Binary64.le (.zero false) x && Binary64.le x .one

def check (o : SurgeryOptions) : Except OptionProblem SurgeryOptions :=
  if ! isShare o.threshold then .error .conservativeThreshold
  else if o.maxChanges < 1 then .error .maxChangesPerFile
  else .ok o

/-- Values that stand in for those of a policy. -/
structure Overrides where
  dryRun : Option Bool := none
  conservative : Option Bool := none
  threshold : Option Binary64 := none
  validateSyntax : Option Bool := none
  maxChanges : Option Int := none
  backup : Option Bool := none
  backupDir : Option String := none
  operations : Option (List Operation) := none
  verbose : Option Bool := none

def override (o : SurgeryOptions) (v : Overrides) : SurgeryOptions :=
  { dryRun := v.dryRun.getD o.dryRun
    conservative := v.conservative.getD o.conservative
    threshold := v.threshold.getD o.threshold
    validateSyntax := v.validateSyntax.getD o.validateSyntax
    maxChanges := v.maxChanges.getD o.maxChanges
    backup := v.backup.getD o.backup
    backupDir := v.backupDir.getD o.backupDir
    operations := v.operations.getD o.operations
    verbose := v.verbose.getD o.verbose }

theorem override_nothing (o : SurgeryOptions) : o.override {} = o := rfl

def withOverrides (o : SurgeryOptions) (v : Overrides) : Except OptionProblem SurgeryOptions :=
  (o.override v).check

/-- The most names to remove from one file. -/
def budget (o : SurgeryOptions) : Nat := o.maxChanges.toNat

end SurgeryOptions

end Deadwood
