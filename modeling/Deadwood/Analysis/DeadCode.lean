import Deadwood.Syntax.Node
import Deadwood.Text.Blank

/-!
Unreachable statements. A statement after a return or a throw of its block is never run; function
declarations are hoisted and stay reachable. Each block has at most one report.
-/
namespace Deadwood

inductive DeadReason
  | afterReturn
  | afterThrow
  deriving DecidableEq, Repr

namespace DeadReason

def name : DeadReason → String
  | .afterReturn => "after-return"
  | .afterThrow => "after-throw"

def ofName? : String → Option DeadReason
  | "after-return" => some .afterReturn
  | "after-throw" => some .afterThrow
  | _ => none

end DeadReason

structure DeadCode where
  file : String
  line : Nat
  reason : DeadReason
  code : String
  deriving DecidableEq, Repr

namespace DeadCode

def isFiller (n : Node) : Bool := n.kind = .comment || n.type = "empty_statement"

def reason? (n : Node) : Option DeadReason :=
  match n.kind with
  | .returnStatement => some .afterReturn
  | .throwStatement => some .afterThrow
  | _ => none

def isReachableLater (n : Node) : Bool := n.kind = .functionDeclaration

/-- The first return or throw among the statements, with what follows it. -/
def terminator? : List Node → Option (DeadReason × List Node)
  | [] => none
  | n :: rest =>
    match reason? n with
    | some r => some (r, rest)
    | none => terminator? rest

def unreachable? (block : Node) : Option (DeadReason × Node) :=
  match terminator? (block.namedChildren.filter (! isFiller ·)) with
  | none => none
  | some (r, rest) => (rest.find? (! isReachableLater ·)).map (r, ·)

def excerptLength : Nat := 80

/-- First line of a statement, shortened. -/
def excerpt (text : String) : String :=
  String.ofList (Text.shorten excerptLength (Text.trim (Text.firstLine (Text.trim text.toList))))

def report? (source : Bytes) (file : String) (n : Node) : Option DeadCode := do
  guard (n.kind = .statementBlock)
  let (reason, statement) ← unreachable? n
  return { file, line := statement.line source, reason,
           code := excerpt (statement.text source) }

def reports (source : Bytes) (file : String) (tree : Node) : List DeadCode :=
  tree.preorder.filterMap (report? source file)

end DeadCode

end Deadwood
