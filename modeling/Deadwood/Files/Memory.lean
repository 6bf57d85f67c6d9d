import Deadwood.Files.Store
import Deadwood.Keyed

/-!
Files held in memory, with paths that refuse to be read or written. Every write that succeeds is
recorded.
-/
namespace Deadwood

structure Memory where
  files : Keyed Path Bytes := []
  unreadable : List Path := []
  unwritable : List Path := []
  writes : List Path := []
  deriving Repr, Inhabited

namespace Memory

def put (m : Memory) (p : Path) (content : Bytes) : Memory :=
  { m with files := Keyed.set m.files p content }

def remove (m : Memory) (p : Path) : Memory := { m with files := Keyed.erase m.files p }

def contains (m : Memory) (p : Path) : Bool := (Keyed.get? m.files p).isSome

def read (m : Memory) (p : Path) : Except FileError Bytes :=
  if m.unreadable.contains p then .error (.refused p)
  else match Keyed.get? m.files p with
    | some content => .ok content
    | none => .error (.absent p)

def write (m : Memory) (p : Path) (content : Bytes) : Except FileError Unit × Memory :=
  if m.unwritable.contains p then (.error (.refused p), m)
  else (.ok (), { m.put p content with writes := m.writes ++ [p] })

def find (m : Memory) (root : Path) (d : Discovery) : List Path :=
  ((Keyed.keys m.files).filter (d.acceptsBelow root)).mergeSort Path.le

instance : Store Memory := ⟨read, write, find⟩

end Memory

end Deadwood
