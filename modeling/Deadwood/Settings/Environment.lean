import Deadwood.Keyed
import Deadwood.Number.Numeral
import Deadwood.Surgery.Options
import Deadwood.Text.Quoted

/-!
Settings read from environment variables. A variable that is unset or blank leaves its default;
every other value must have the form of its setting.
-/
namespace Deadwood

abbrev Environment := Keyed String String

/-- Why a variable cannot be set. -/
inductive VariableProblem
  | nullByte
  | equalsSign
  | noName
  deriving DecidableEq, Repr

namespace VariableProblem

def className : VariableProblem → String
  | .noName => "OSError"
  | _ => "ValueError"

def message : VariableProblem → String
  | .nullByte => "embedded null byte"
  | .equalsSign => "illegal environment variable name"
  | .noName => "[Errno 22] Invalid argument"

end VariableProblem

namespace Environment

def hasNull (text : String) : Bool := text.toList.contains '\x00'

def put (env : Environment) (name value : String) : Except VariableProblem Environment :=
  if hasNull name || hasNull value then .error .nullByte
  else if name.toList.contains '=' then .error .equalsSign
  else if name = "" then .error .noName
  else .ok (Keyed.set env name value)

/-- Sets variables and takes away those without a value, up to the first that cannot be set. -/
def update (env : Environment) :
    List (String × Option String) → Except VariableProblem Unit × Environment
  | [] => (.ok (), env)
  | (name, none) :: rest => update (Keyed.erase env name) rest
  | (name, some value) :: rest =>
    match put env name value with
    | .ok env => update env rest
    | .error e => (.error e, env)

end Environment

inductive SettingProblem
  | boolean (name raw : String)
  | integer (name raw : String)
  | number (name raw : String)
  | option (problem : OptionProblem)
  deriving DecidableEq, Repr

def SettingProblem.message : SettingProblem → String
  | .boolean name raw => s!"{name} must be a boolean, got {Text.quoted raw}"
  | .integer name raw => s!"{name} must be an integer, got {Text.quoted raw}"
  | .number name raw => s!"{name} must be a number, got {Text.quoted raw}"
  | .option p => p.message

namespace Settings

def get (env : Environment) (name : String) : Option String := Keyed.get? env name

/-- The raw value of a variable that is set to more than blanks. -/
def present? (env : Environment) (name : String) : Option String :=
  (get env name).filter (Text.trimmed · ≠ "")

def bool? (raw : String) : Option Bool :=
  match Text.lowerAscii (Text.trimmed raw) with
  | "1" | "true" | "yes" | "on" => some true
  | "0" | "false" | "no" | "off" => some false
  | _ => none

/-- A variable read in the form of its setting. -/
def parsed {α : Type} (env : Environment) (name : String) (default : α) (read? : String → Option α)
    (problem : String → String → SettingProblem) : Except SettingProblem α :=
  match present? env name with
  | none => .ok default
  | some raw =>
    match read? raw with
    | some a => .ok a
    | none => .error (problem name raw)

def items (raw : String) : List String :=
  ((raw.toList.splitOn ',').map fun cs => String.ofList (Text.trim cs)).filter (· ≠ "")

def list (env : Environment) (name : String) (default : List String) : List String :=
  match present? env name with
  | none => default
  | some raw => items raw

def maxChanges (env : Environment) : Except SettingProblem Int :=
  parsed env "SCRIPT_DOCTOR_MAX_CHANGES" 10 Number.readInt? .integer

def threshold (env : Environment) : Except SettingProblem Binary64 :=
  parsed env "SCRIPT_DOCTOR_THRESHOLD" .threeTenths Number.readDouble? .number

def conservative (env : Environment) : Except SettingProblem Bool :=
  parsed env "SCRIPT_DOCTOR_CONSERVATIVE" true bool? .boolean

def validateSyntax (env : Environment) : Except SettingProblem Bool :=
  parsed env "SCRIPT_DOCTOR_VALIDATE" true bool? .boolean

/-- Taken as it stands, even if it is blank. -/
def backupDir (env : Environment) : String :=
  (get env "SCRIPT_DOCTOR_BACKUP_DIR").getD defaultBackupDir

def minDuplicateLines (env : Environment) : Except SettingProblem Int :=
  parsed env "SCRIPT_DOCTOR_MIN_DUPLICATE_LINES" 3 Number.readInt? .integer

def maxComplexity (env : Environment) : Except SettingProblem Int :=
  parsed env "SCRIPT_DOCTOR_MAX_COMPLEXITY" 10 Number.readInt? .integer

def handlers (env : Environment) : List String :=
  list env "SCRIPT_DOCTOR_HANDLER_CALLEES" ({} : ChannelForms).handlers

def invokers (env : Environment) : List String :=
  list env "SCRIPT_DOCTOR_INVOKE_CALLEES" ({} : ChannelForms).invokers

def surgery (env : Environment) : Except SettingProblem SurgeryOptions := do
  let o : SurgeryOptions := {
    conservative := ← conservative env
    threshold := ← threshold env
    validateSyntax := ← validateSyntax env
    maxChanges := ← maxChanges env
    backupDir := backupDir env }
  o.check.mapError .option

def analysis (env : Environment) : Except SettingProblem AnalysisOptions := do
  let o : AnalysisOptions := {
    minDuplicateLines := ← minDuplicateLines env
    forms := ⟨handlers env, invokers env⟩
    maxComplexity := ← maxComplexity env }
  o.check.mapError .option

/-- Reads every setting once, so that a bad one shows early. -/
def check (env : Environment) : Except SettingProblem Unit := do
  let _ ← surgery env
  let _ ← analysis env

/-- Settings that have been checked once and stay in use until they are dropped. -/
structure Cache where
  current : Option Nat := none
  made : Nat := 0
  deriving DecidableEq, Repr

namespace Cache

/-- The settings in use, by number, checked first if there are none. -/
def obtain (c : Cache) (env : Environment) : Except SettingProblem Nat × Cache :=
  match c.current with
  | some n => (.ok n, c)
  | none =>
    match check env with
    | .error p => (.error p, c)
    | .ok () => (.ok c.made, ⟨some c.made, c.made + 1⟩)

def drop (c : Cache) : Cache := { c with current := none }

end Cache

end Settings

end Deadwood
