import Deadwood.Bytes
import Deadwood.Keyed

/-!
Directory trees without links. An entry is a file or a directory, each with its mode; it is looked
up and changed along a list of names, and `paths` lists the files under it. There are no symbolic
links, and no file has two names. The mode of an entry is kept and copied, but it refuses no one.
-/
namespace Deadwood

inductive Entry
  | file (mode : Nat) (content : Bytes)
  | directory (mode : Nat) (entries : List (String × Entry))
  deriving Repr, Inhabited

namespace Entry

def newFileMode : Nat := 0o644
def newDirectoryMode : Nat := 0o755

def empty : Entry := .directory newDirectoryMode []

def isDirectory : Entry → Bool
  | .directory _ _ => true
  | .file _ _ => false

def mode : Entry → Nat
  | .file m _ => m
  | .directory m _ => m

def withMode (m : Nat) : Entry → Entry
  | .file _ content => .file m content
  | .directory _ entries => .directory m entries

def content? : Entry → Option Bytes
  | .file _ content => some content
  | .directory _ _ => none

def child? (name : String) : Entry → Option Entry
  | .file _ _ => none
  | .directory _ entries => Keyed.get? entries name

def get? : Entry → List String → Option Entry
  | e, [] => some e
  | e, name :: rest => (e.child? name).bind (·.get? rest)

theorem get?_nil (e : Entry) : e.get? [] = some e := by cases e <;> rfl

def setChild (name : String) (e : Option Entry) : Entry → Entry
  | .file m content => .file m content
  | .directory m entries =>
    match e with
    | some e => .directory m (Keyed.set entries name e)
    | none => .directory m (Keyed.erase entries name)

/-- Puts an entry at the end of the names, or takes away what is there. Directories on the way have
to exist. -/
def put (e : Option Entry) : List String → Entry → Entry
  | [], root => e.getD root
  | [name], root => root.setChild name e
  | name :: rest, root =>
    match root.child? name with
    | some c => root.setChild name (some (c.put e rest))
    | none => root

mutual
/-- Paths of the files below, not looking into directories that `enters` refuses. -/
def paths (enters : String → Bool) (above : List String) : Entry → List (List String)
  | .file _ _ => [above]
  | .directory _ entries => pathsAll enters above entries

def pathsAll (enters : String → Bool) (above : List String) :
    List (String × Entry) → List (List String)
  | [] => []
  | (name, e) :: rest =>
    (if e.isDirectory && ! enters name then [] else paths enters (above ++ [name]) e) ++
      pathsAll enters above rest
end

mutual
/-- Every file with its path and content. -/
def files (above : List String) : Entry → List (List String × Bytes)
  | .file _ content => [(above, content)]
  | .directory _ entries => filesAll above entries

def filesAll (above : List String) : List (String × Entry) → List (List String × Bytes)
  | [] => []
  | (name, e) :: rest => files (above ++ [name]) e ++ filesAll above rest
end

end Entry

end Deadwood
