import Deadwood.Analysis.Fingerprint

/-!
Cyclomatic complexity: one more than the decision points of a body, those of functions within it
left to them.
-/
namespace Deadwood

structure ComplexFunction where
  name : String
  file : String
  line : Nat
  complexity : Nat
  deriving DecidableEq, Repr

namespace Complexity

def isShortCircuit (operator : String) : Bool :=
  operator = "&&" || operator = "||" || operator = "??"

def isDecision (n : Node) : Bool :=
  match n.kind with
  | .branch => true
  | .binary => ((n.child? "operator").map (isShortCircuit ·.type)).getD false
  | _ => false

def entersBody (n : Node) : Bool := ! n.kind.isFunctionLike

def ofBody (body : Node) : Nat :=
  if entersBody body then 1 + (body.preorderWhile entersBody).countP isDecision else 1

theorem one_le_ofBody (body : Node) : 1 ≤ ofBody body := by
  unfold ofBody; split <;> omega

def report? (limit : Int) (source : Bytes) (file : String) (p : Place) : Option ComplexFunction := do
  guard p.node.kind.isFunctionLike
  let body ← p.node.child? "body"
  guard (decide (limit < (ofBody body : Int)))
  return { name := functionName source p, file, line := p.node.line source, complexity := ofBody body }

def reports (limit : Int) (source : Bytes) (file : String) (tree : Node) : List ComplexFunction :=
  (Place.preorder tree).filterMap (report? limit source file)

end Complexity

end Deadwood
