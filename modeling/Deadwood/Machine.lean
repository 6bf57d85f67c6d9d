import Deadwood.Disk.Action
import Deadwood.Json.Basic

/-!
The machine that the tool runs on: its disk, the moment on its clock and a serial number, used up by
every backup, that tells apart the backups of one moment.
-/
namespace Deadwood

structure Moment where
  year : Nat
  month : Nat
  day : Nat
  hour : Nat
  minute : Nat
  second : Nat
  deriving DecidableEq, Repr

namespace Moment

def padded (width n : Nat) : String :=
  let digits := (toString n).toList
  String.ofList (List.replicate (width - digits.length) '0' ++ digits)

def text (t : Moment) : String :=
  s!"{padded 4 t.year}-{padded 2 t.month}-{padded 2 t.day}T" ++
    s!"{padded 2 t.hour}:{padded 2 t.minute}:{padded 2 t.second}"

/-- The moment as a part of a file name. -/
def compact (t : Moment) : String :=
  s!"{padded 4 t.year}{padded 2 t.month}{padded 2 t.day}_" ++
    s!"{padded 2 t.hour}{padded 2 t.minute}{padded 2 t.second}"

end Moment

structure Machine where
  disk : Disk
  now : Moment
  serial : Nat := 1
  deriving Repr

namespace Machine

def replace (m : Machine) (p : Path) (content : Bytes) : Except FileError Unit × Machine :=
  let (r, d) := m.disk.replace p content
  (r, { m with disk := d })

def find (m : Machine) (root : Path) (discovery : Discovery) : List Path :=
  m.disk.find root discovery

instance : Store Machine := ⟨fun m p => m.disk.read p, replace, find⟩

/-- The name of the next backup: its moment and six hexadecimal digits of its serial number. -/
def backupName (m : Machine) : String :=
  s!"backup-{m.now.compact}_" ++ String.ofList (Text.hexDigits 6 m.serial)

/-- Lets work on the disk take place. -/
def work {ε α : Type} (m : Machine) (act : Disk.Action ε α) : Except ε α × Machine :=
  let (r, d) := act m.disk
  (r, { m with disk := d })

end Machine

end Deadwood
