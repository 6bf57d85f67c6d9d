/-!
Paths with slashes. A path is written one way: without empty or `.` parts, with `..` kept until it
is resolved. Two leading slashes are a root of their own.
-/
namespace Deadwood

structure Path where
  slashes : Nat
  parts : List String
  deriving DecidableEq, Repr, Inhabited

namespace Path

def rootOf (leading : Nat) : Nat := if leading ≤ 2 then leading else 1

def splitParts (text : List Char) : List String :=
  ((text.splitOn '/').map String.ofList).filter fun part => part ≠ "" ∧ part ≠ "."

def ofString (text : String) : Path :=
  { slashes := rootOf (text.toList.takeWhile (· = '/')).length
    parts := splitParts text.toList }

def root (p : Path) : String := String.ofList (List.replicate p.slashes '/')

def relativeText (p : Path) : String := "/".intercalate p.parts

def toString (p : Path) : String :=
  if p.slashes = 0 ∧ p.parts = [] then "." else p.root ++ p.relativeText

instance : ToString Path := ⟨toString⟩

/-- The parts by which paths are ordered, a root being a part. -/
def key (p : Path) : List String := if p.slashes = 0 then p.parts else p.root :: p.parts

def le (p q : Path) : Bool := (compare p.key q.key).isLE

def isAbsolute (p : Path) : Bool := p.slashes != 0

/-- Whether a part holds a null character. No disk has such a name. -/
def hasNull (p : Path) : Bool := p.parts.any (·.toList.contains '\x00')

def name (p : Path) : String := p.parts.getLast?.getD ""

def parent (p : Path) : Path := { p with parts := p.parts.dropLast }

def child (p : Path) (part : String) : Path := { p with parts := p.parts ++ [part] }

def withName (p : Path) (name : String) : Path := p.parent.child name

theorem parent_child (p : Path) (part : String) : (p.child part).parent = p := by
  simp [child, parent]

def join (p q : Path) : Path := if q.isAbsolute then q else { p with parts := p.parts ++ q.parts }

/-- What follows the last dot of a name, dot included, if the dot neither starts nor ends it. -/
def suffixChars (name : List Char) : List Char :=
  let after := name.reverse.takeWhile (· ≠ '.')
  if after = [] ∨ name.length ≤ after.length + 1 then [] else '.' :: after.reverse

def suffix (p : Path) : String := String.ofList (suffixChars p.name.toList)

def relativeTo? (p base : Path) : Option (List String) :=
  if p.slashes = base.slashes then base.parts.isPrefixOf? p.parts else none

theorem relativeTo?_join (p : Path) (parts : List String) :
    ({ p with parts := p.parts ++ parts } : Path).relativeTo? p = some parts := by
  have h : p.parts.isPrefixOf? (p.parts ++ parts) = some parts := by
    induction p.parts with
    | nil => rfl
    | cons a rest ih =>
      show (if a == a then rest.isPrefixOf? (rest ++ parts) else none) = some parts
      rw [if_pos (beq_self_eq_true a), ih]
  simp [relativeTo?, h]

def climb (done : List String) (part : String) : List String :=
  if part = ".." then done.dropLast else done ++ [part]

/-- The absolute path with no `..` left; a relative one starts from `here`. -/
def resolve (here p : Path) : Path := ⟨1, (here.join p).parts.foldl climb []⟩

end Path

end Deadwood
