import Deadwood.Disk.Basic

/-!
Finding files on a disk. The walk does not look into directories whose name is ignored.
-/
namespace Deadwood

namespace Discovery

/-- Entries that name a directory, wild ones apart. -/
def prunes (d : Discovery) (name : String) : Bool := d.ignored.any fun e => e = name && ! Glob.isWild e

/-- The accepted files below a directory, by their parts. -/
def foundBelow (d : Discovery) (root : Entry) : List (List String) :=
  (root.paths (! d.prunes ·) []).filter fun parts => d.accepts (below parts)

end Discovery

namespace Disk

def find (d : Disk) (root : Path) (discovery : Discovery) : List Path :=
  let root := Path.resolve d.here root
  match d.at? root.parts with
  | some (.directory mode entries) =>
    ((discovery.foundBelow (.directory mode entries)).map fun parts =>
      { root with parts := root.parts ++ parts }).mergeSort Path.le
  | _ => []

end Disk

end Deadwood
