import Deadwood.Proofs.Syntax.Pruned
import Deadwood.Proofs.Syntax.Stack
import Deadwood.Syntax.Source

/-!
Where the first fault of a tree is. A search from a stack that looks only below nodes with a fault
at or below them, and the same search along the tree, find what a search of the whole tree finds
(`findFault_eq_find?`, `firstFault?_eq_find?`), and a text is refused at that place
(`refuses_at_first_fault`).
-/
namespace Deadwood

namespace Place

variable {tree : Node} {p : Place}

def isFault (p : Place) : Bool := p.node.isFault

/-! ## Faults at and below a place -/

theorem hasFault_eq_any (p : Place) :
    p.node.hasFault = (preorderFrom p.above p.node).any isFault := by
  rw [Node.hasFault_eq_any, ← preorderFrom_nodes p.above, List.any_map]
  rfl

/-- A node has a fault if it is one or some descendant is. -/
theorem Of.hasFault_iff (hp : Of tree p) :
    p.node.hasFault = true ↔ ∃ q, Of tree q ∧ p.address <:+ q.address ∧ q.isFault = true := by
  rw [hasFault_eq_any, List.any_eq_true]
  constructor
  · rintro ⟨q, hq, hfault⟩
    have hof : Of tree q := of_mem_preorderFrom hp hq
    exact ⟨q, hof, (hp.mem_preorderFrom_iff hof).1 hq, hfault⟩
  · rintro ⟨q, hof, hbelow, hfault⟩
    exact ⟨q, (hp.mem_preorderFrom_iff hof).2 hbelow, hfault⟩

/-! ## The search from a stack -/

/-- The places at and below those on a stack, in document order. -/
def listed (stack : List Place) : List Place := stack.flatMap fun p => preorderFrom p.above p.node

theorem listed_append (a b : List Place) : listed (a ++ b) = listed a ++ listed b :=
  List.flatMap_append

theorem listed_singleton (p : Place) : listed [p] = preorderFrom p.above p.node :=
  List.flatMap_singleton ..

theorem preorderAllFrom_eq_listed (parent : Node) (above : List (Node × Nat)) (i : Nat)
    (ns : List Node) : preorderAllFrom parent above i ns =
      listed (ns.mapIdx fun j n => ⟨n, (parent, i + j) :: above⟩) := by
  induction ns generalizing i with
  | nil => rfl
  | cons n rest ih =>
    rw [preorderAllFrom, ih, List.mapIdx_cons]
    simp only [Nat.add_zero, Nat.add_assoc, Nat.add_comm 1]
    rfl

theorem preorderFrom_eq_cons (p : Place) :
    preorderFrom p.above p.node = p :: listed p.children := by
  obtain ⟨⟨l, cs⟩, above⟩ := p
  rw [preorderFrom, preorderAllFrom_eq_listed]
  simp only [Nat.zero_add]
  rfl

theorem listed_cons (p : Place) (rest : List Place) :
    listed (p :: rest) = p :: (listed p.children ++ listed rest) := by
  rw [← List.cons_append, ← preorderFrom_eq_cons]
  rfl

/-- Takes places off a stack until one is a fault. The children of a place come onto the stack if it
has a fault. -/
def findFault : List Place → Option Place
  | [] => none
  | p :: rest =>
    if p.isFault then some p
    else findFault (remaining (fun _ q => q.node.hasFault) () p rest)
termination_by stack => pending stack
decreasing_by exact pending_remaining_lt _ () p rest

/-- Children come off the stack where they stand in document order, and those that never come onto
it have no fault among and below them. -/
theorem findFault_eq_find? (stack : List Place) :
    findFault stack = (listed stack).find? isFault := by
  induction stack using findFault.induct with
  | case1 =>
    rw [findFault]
    rfl
  | case2 p rest hfault =>
    rw [findFault, if_pos hfault, listed_cons, List.find?_cons_of_pos hfault]
  | case3 p rest hfault ih =>
    rw [findFault, if_neg hfault, ih, listed_cons, List.find?_cons_of_neg hfault, remaining]
    split
    · rw [push_eq, listed_append]
    · next hclean =>
      have hbelow : (listed p.children).find? isFault = none := by
        rw [hasFault_eq_any, Bool.not_eq_true, preorderFrom_eq_cons, List.any_cons,
          Bool.or_eq_false_iff, List.any_eq_false] at hclean
        exact List.find?_eq_none.2 hclean.2
      rw [List.find?_append, hbelow, Option.none_or]

theorem findFault_root (tree : Node) : findFault [root tree] = (preorder tree).find? isFault := by
  rw [findFault_eq_find?, listed_singleton]
  rfl

end Place

/-! ## The search along the tree -/

namespace Node

mutual
theorem firstFault?_eq_find? (n : Node) : n.firstFault? = n.preorder.find? isFault := by
  cases n with
  | mk l cs =>
    rw [firstFault?, preorder]
    change (if (mk l cs).isFault = true then _ else _) = _
    by_cases hfault : (mk l cs).isFault = true
    · rw [if_pos hfault, List.find?_cons_of_pos hfault]
    · rw [if_neg hfault, List.find?_cons_of_neg hfault]
      split
      · exact firstFaultOf?_eq_find? cs
      · next hclean =>
        rw [anyFault_eq_any, Bool.not_eq_true, List.any_eq_false] at hclean
        exact (List.find?_eq_none.2 hclean).symm

theorem firstFaultOf?_eq_find? (ns : List Node) :
    firstFaultOf? ns = (preorderAll ns).find? isFault := by
  cases ns with
  | nil => rfl
  | cons n rest =>
    rw [firstFaultOf?, preorderAll, List.find?_append, firstFault?_eq_find? n,
      firstFaultOf?_eq_find? rest]
end

/-- Both searches end at one node. -/
theorem firstFault?_eq_map (tree : Node) :
    tree.firstFault? = (Place.findFault [Place.root tree]).map (·.node) := by
  rw [firstFault?_eq_find?, Place.findFault_root, ← Place.preorder_nodes, List.find?_map]
  rfl

end Node

/-! ## The place of a refusal -/

namespace Grammar

/-- A text whose tree has a fault is refused, and the row and column named, counted from one, are
those of the first faulty place in document order: the search from a stack ends there, never at the
root for want of a fault. -/
theorem refuses_at_first_fault (g : Grammar) (language : Language) (source : Bytes)
    (h : (g language source).hasFault = true) :
    let tree := g language source;
    (∀ p, Place.Of tree p → (p.node.hasFault = true ↔
      ∃ q, Place.Of tree q ∧ p.address <:+ q.address ∧ q.isFault = true)) ∧
    ∃ before p after, Place.preorder tree = before ++ p :: after ∧
      (∀ q ∈ before, q.isFault = false) ∧ p.isFault = true ∧
      Place.findFault [Place.root tree] = some p ∧ tree.firstFault? = some p.node ∧
      g.parse language source =
        .error (.faulty (source.row p.node.start + 1) (source.column p.node.start + 1)) := by
  intro tree
  refine ⟨fun p hp => hp.hasFault_iff, ?_⟩
  obtain ⟨q, hq, -, hfault⟩ := Place.Of.top.hasFault_iff.1 h
  obtain ⟨p, hp⟩ := Option.isSome_iff_exists.1
    (List.find?_isSome.2 ⟨q, Place.mem_preorder.2 hq, hfault⟩)
  have hsearch : Place.findFault [Place.root tree] = some p := by
    rw [Place.findFault_root, hp]
  have hfirst : tree.firstFault? = some p.node := by
    rw [Node.firstFault?_eq_map, hsearch, Option.map_some]
  obtain ⟨hfaulty, before, after, hsplit, hbefore⟩ := List.find?_eq_some_iff_append.1 hp
  have hparse : g.parse language source = .error (faultAt source p.node) := by
    rw [parse, if_pos h, hfirst, Option.getD_some]
  refine ⟨before, p, after, hsplit, fun q hq => ?_, hfaulty, hsearch, hfirst, hparse⟩
  simpa using hbefore q hq

namespace Broken

def node (type : String) (start stop : Nat) (children : List Node) : Node :=
  .mk ⟨type, none, true, false, start, stop⟩ children

def closing : Node := node "ERROR" 5 6 [node ")" 5 6 []]

/-- The semicolon that a statement ends without. -/
def absent : Node := .mk ⟨";", none, false, true, 6, 6⟩ []

/-- The lines `a;` and `b ) c`. -/
def source : Bytes := [97, 59, 10, 98, 32, 41, 32, 99]

def program : Node := node "program" 0 8
  [node "expression_statement" 0 2 [node "identifier" 0 1 [], node ";" 1 2 []],
    node "expression_statement" 3 6 [node "identifier" 3 4 [], closing, absent],
    node "ERROR" 7 8 [node "identifier" 7 8 []]]

def grammar : Grammar := fun _ _ => program

end Broken

/-- A fault below a sound statement comes before its sibling and before one that stands higher. -/
theorem refuses_at_first_fault_sample : Broken.program.hasFault = true ∧
    Broken.program.firstFault? = some Broken.closing ∧
    Broken.grammar.parse .javascript Broken.source = .error (.faulty 2 3) := by
  have hfault : Broken.program.hasFault = true := by decide
  obtain ⟨-, -, p, -, -, -, -, -, hfirst, hparse⟩ :=
    refuses_at_first_fault Broken.grammar .javascript Broken.source hfault
  have hclosing : Broken.program.firstFault? = some Broken.closing := rfl
  have hnode : p.node = Broken.closing := Option.some.inj (hfirst.symm.trans hclosing)
  rw [hnode] at hparse
  exact ⟨hfault, hclosing, hparse⟩

end Grammar

end Deadwood
