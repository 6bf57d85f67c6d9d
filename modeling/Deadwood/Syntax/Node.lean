import Deadwood.Text.Utf8
import Deadwood.Syntax.Kind

/-!
Syntax trees. A node has a type, the field under which it hangs off its parent, two flags, the
bytes it covers and its children. `preorder` lists a tree in document order.
-/
namespace Deadwood

structure Label where
  type : String
  field : Option String
  named : Bool
  missing : Bool
  start : Nat
  stop : Nat
  deriving DecidableEq, Repr, Inhabited

inductive Node
  | mk (label : Label) (children : List Node)
  deriving Repr, Inhabited

namespace Node

def label : Node → Label
  | .mk l _ => l

def children : Node → List Node
  | .mk _ cs => cs

def type (n : Node) : String := n.label.type
def field (n : Node) : Option String := n.label.field
def isNamed (n : Node) : Bool := n.label.named
def start (n : Node) : Nat := n.label.start
def stop (n : Node) : Nat := n.label.stop
def kind (n : Node) : NodeKind := .ofType n.type
def isLeaf (n : Node) : Bool := n.children.isEmpty
def isEmpty (n : Node) : Bool := n.start == n.stop

def namedChildren (n : Node) : List Node := n.children.filter isNamed

def child? (n : Node) (field : String) : Option Node := n.children.find? (·.field == some field)

def bytes (n : Node) (source : Bytes) : Bytes := source.slice n.start n.stop

def text (n : Node) (source : Bytes) : String := Utf8.decodeLossy (n.bytes source)

/-- The row of a node's first byte, counted from one. -/
def line (n : Node) (source : Bytes) : Nat := source.row n.start + 1

def firstRow (n : Node) (source : Bytes) : Nat := source.row n.start
def lastRow (n : Node) (source : Bytes) : Nat := source.row n.stop

mutual
def preorder : Node → List Node
  | .mk l cs => .mk l cs :: preorderAll cs

def preorderAll : List Node → List Node
  | [] => []
  | n :: rest => preorder n ++ preorderAll rest
end

theorem preorderAll_eq_flatMap (ns : List Node) : preorderAll ns = ns.flatMap preorder := by
  induction ns with
  | nil => rfl
  | cons n rest ih => simp [preorderAll, ih]

theorem mem_preorder_self (n : Node) : n ∈ n.preorder := by
  cases n; simp [preorder]

mutual
/-- Document order without what lies below the nodes that `enters` refuses. -/
def preorderWhile (enters : Node → Bool) : Node → List Node
  | .mk l cs => .mk l cs :: if enters (.mk l cs) then preorderAllWhile enters cs else []

def preorderAllWhile (enters : Node → Bool) : List Node → List Node
  | [] => []
  | n :: rest => preorderWhile enters n ++ preorderAllWhile enters rest
end

def isFault (n : Node) : Bool := n.type == "ERROR" || n.label.missing

mutual
def hasFault : Node → Bool
  | .mk l cs => (l.type == "ERROR" || l.missing) || anyFault cs

def anyFault : List Node → Bool
  | [] => false
  | n :: rest => hasFault n || anyFault rest
end

mutual
theorem hasFault_eq_any (n : Node) : n.hasFault = n.preorder.any isFault := by
  cases n with
  | mk l cs =>
    simp only [hasFault, preorder, List.any_cons, anyFault_eq_any cs]
    rfl

theorem anyFault_eq_any (ns : List Node) : anyFault ns = (preorderAll ns).any isFault := by
  cases ns with
  | nil => rfl
  | cons n rest =>
    simp only [anyFault, preorderAll, List.any_append, hasFault_eq_any n, anyFault_eq_any rest]
end

mutual
/-- The first faulty node, sought only below nodes that have one. -/
def firstFault? : Node → Option Node
  | .mk l cs =>
    if l.type == "ERROR" || l.missing then some (.mk l cs)
    else if anyFault cs then firstFaultOf? cs else none

def firstFaultOf? : List Node → Option Node
  | [] => none
  | n :: rest => (firstFault? n).or (firstFaultOf? rest)
end

end Node

end Deadwood
