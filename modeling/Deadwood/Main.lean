import Deadwood.Command.Run
import Deadwood.Command.Snapshot

/-!
The program. Its first argument is a snapshot file and the others are a command line. The command
works on a disk in memory; what it changed there is written out when it ends.
-/
namespace Deadwood.Program

def variableNames : List String := [
  "SCRIPT_DOCTOR_MAX_CHANGES", "SCRIPT_DOCTOR_THRESHOLD", "SCRIPT_DOCTOR_CONSERVATIVE",
  "SCRIPT_DOCTOR_VALIDATE", "SCRIPT_DOCTOR_BACKUP_DIR", "SCRIPT_DOCTOR_MIN_DUPLICATE_LINES",
  "SCRIPT_DOCTOR_MAX_COMPLEXITY", "SCRIPT_DOCTOR_HANDLER_CALLEES", "SCRIPT_DOCTOR_INVOKE_CALLEES"]

def environment : IO Environment :=
  variableNames.foldlM (fun env name => do
    match ← IO.getEnv name with
    | some v => return Keyed.set env name v
    | none => return env) []

def load (s : Snapshot) : IO (List (Path × Bytes)) :=
  s.files.mapM fun p => return (p, (← IO.FS.readBinFile p.toString).toList)

def rights (mode : Nat) : IO.FileRight :=
  let access (bits : Nat) : IO.AccessRight :=
    ⟨bits / 4 % 2 = 1, bits / 2 % 2 = 1, bits % 2 = 1⟩
  ⟨access (mode / 64), access (mode / 8), access mode⟩

def save (after : Disk) (parts : List String) : Option Bytes → IO Unit
  | none => IO.FS.removeFile (Path.mk 1 parts).toString
  | some content => do
    let p : Path := ⟨1, parts⟩
    IO.FS.createDirAll p.parent.toString
    IO.FS.writeBinFile p.toString ⟨content.toArray⟩
    if let .ok mode := after.mode p then IO.setAccessRights p.toString (rights mode)

/-- Runs a command, again from the start for every line that it waits for. -/
partial def converse (run : String → Command.Response) (input : String) (printed : Nat) :
    IO Command.Response := do
  let r := run input
  let output ← IO.getStdout
  output.putStr (String.ofList (r.final.output.toList.drop printed))
  output.flush
  if r.final.waiting then
    let line ← (← IO.getStdin).getLine
    if line.isEmpty then return r
    converse run (input ++ line) (r.final.output.length + line.length)
  else return r

def finish (before : Disk) (r : Command.Response) : IO UInt32 := do
  let after := r.final.machine.disk
  for (parts, content) in before.changes after do save after parts content
  for item in r.final.screen do IO.println item.plain
  for note in r.final.notes do IO.eprintln note
  match r.ending with
  | .exit _ => pure ()
  | .usage e => IO.eprintln e.message
  | .crash name message => IO.eprintln s!"{name}: {message}"
  return UInt32.ofNat r.ending.code

def run (snapshot : String) (args : List String) : IO UInt32 := do
  let s ← IO.ofExcept (Snapshot.read (← IO.FS.readFile snapshot))
  let serial ← IO.rand 1 0xFFFFFF
  let m ← IO.ofExcept ((s.machine (← load s) serial).mapError (·.message))
  let setting : Command.Setting := ⟨s.grammar, ← environment⟩
  finish m.disk (← converse (Command.run setting args · m) "" 0)

end Deadwood.Program

def main (args : List String) : IO UInt32 :=
  match args with
  | snapshot :: rest => Deadwood.Program.run snapshot rest
  | [] => do
    IO.eprintln "Usage: deadwood SNAPSHOT COMMAND [ARGS]"
    return 2
