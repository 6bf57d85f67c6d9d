import Deadwood.Syntax.Node

/-!
Places in a tree: a node together with its ancestors and its index below each. A place knows its
siblings and its parent, and its address tells it from every other place of the tree. `walk` goes
through the places in document order and enters a place only if the state reached there allows it.
-/
namespace Deadwood

/-- Indices from a node up to the root. -/
abbrev Address := List Nat

structure Place where
  node : Node
  above : List (Node × Nat)
  deriving Inhabited

namespace Place

def root (tree : Node) : Place := ⟨tree, []⟩

def address (p : Place) : Address := p.above.map (·.2)

def parent? (p : Place) : Option Place :=
  match p.above with
  | [] => none
  | (n, _) :: rest => some ⟨n, rest⟩

def parentType? (p : Place) : Option String := p.parent?.map (·.node.type)

def ancestors (p : Place) : List Node := p.above.map (·.1)

def childAt (p : Place) (i : Nat) (n : Node) : Place := ⟨n, (p.node, i) :: p.above⟩

def children (p : Place) : List Place := p.node.children.mapIdx p.childAt

def namedChildren (p : Place) : List Place := p.children.filter (·.node.isNamed)

def child? (p : Place) (field : String) : Option Place :=
  p.children.find? (·.node.field == some field)

theorem children_nodes (p : Place) : p.children.map (·.node) = p.node.children := by
  apply List.ext_getElem <;> simp [children, childAt]

/-- Siblings after the place, nearest first. -/
def following (p : Place) : List Place :=
  match p.above with
  | [] => []
  | (n, i) :: rest => (children ⟨n, rest⟩).drop (i + 1)

/-- Siblings before the place, nearest first. -/
def preceding (p : Place) : List Place :=
  match p.above with
  | [] => []
  | (n, i) :: rest => ((children ⟨n, rest⟩).take i).reverse

def next? (p : Place) : Option Place := p.following.head?

mutual
def preorderFrom (above : List (Node × Nat)) : Node → List Place
  | .mk l cs => ⟨.mk l cs, above⟩ :: preorderAllFrom (.mk l cs) above 0 cs

def preorderAllFrom (parent : Node) (above : List (Node × Nat)) (i : Nat) : List Node → List Place
  | [] => []
  | n :: rest => preorderFrom ((parent, i) :: above) n ++ preorderAllFrom parent above (i + 1) rest
end

def preorder (tree : Node) : List Place := preorderFrom [] tree

mutual
theorem preorderFrom_nodes (above : List (Node × Nat)) (n : Node) :
    (preorderFrom above n).map (·.node) = n.preorder := by
  cases n with
  | mk l cs => simp [preorderFrom, Node.preorder, preorderAllFrom_nodes]

theorem preorderAllFrom_nodes (parent : Node) (above : List (Node × Nat)) (i : Nat)
    (ns : List Node) : (preorderAllFrom parent above i ns).map (·.node) = Node.preorderAll ns := by
  cases ns with
  | nil => rfl
  | cons n rest =>
    simp [preorderAllFrom, Node.preorderAll, preorderFrom_nodes, preorderAllFrom_nodes]
end

theorem preorder_nodes (tree : Node) : (preorder tree).map (·.node) = tree.preorder :=
  preorderFrom_nodes [] tree

variable {σ : Type}

mutual
def walkFrom (visit : σ → Place → σ) (enters : σ → Place → Bool) (above : List (Node × Nat))
    (s : σ) : Node → σ
  | .mk l cs =>
    let s := visit s ⟨.mk l cs, above⟩
    if enters s ⟨.mk l cs, above⟩ then walkAllFrom visit enters (.mk l cs) above 0 s cs else s

def walkAllFrom (visit : σ → Place → σ) (enters : σ → Place → Bool) (parent : Node)
    (above : List (Node × Nat)) (i : Nat) (s : σ) : List Node → σ
  | [] => s
  | n :: rest =>
    walkAllFrom visit enters parent above (i + 1)
      (walkFrom visit enters ((parent, i) :: above) s n) rest
end

def walk (visit : σ → Place → σ) (enters : σ → Place → Bool) (s : σ) (tree : Node) : σ :=
  walkFrom visit enters [] s tree

mutual
theorem walkFrom_true (visit : σ → Place → σ) (above : List (Node × Nat)) (s : σ) (n : Node) :
    walkFrom visit (fun _ _ => true) above s n = (preorderFrom above n).foldl visit s := by
  cases n with
  | mk l cs => simp [walkFrom, preorderFrom, walkAllFrom_true]

theorem walkAllFrom_true (visit : σ → Place → σ) (parent : Node) (above : List (Node × Nat))
    (i : Nat) (s : σ) (ns : List Node) :
    walkAllFrom visit (fun _ _ => true) parent above i s ns =
      (preorderAllFrom parent above i ns).foldl visit s := by
  cases ns with
  | nil => rfl
  | cons n rest => simp [walkAllFrom, preorderAllFrom, walkFrom_true, walkAllFrom_true]
end

end Place

end Deadwood
