import Deadwood.Syntax.Language
import Deadwood.Syntax.Node

/-!
Source files and how they are parsed. A grammar gives every text a tree, faults marked in it; a
text is accepted only if its tree has none, and the first fault is the one reported.
-/
namespace Deadwood

abbrev Grammar := Language → Bytes → Node

inductive ParseProblem
  | unsupported (suffix : String)
  | unreadable (reason : String)
  | undecodable (fault : Utf8.Fault)
  | faulty (line column : Nat)
  deriving DecidableEq, Repr

namespace ParseProblem

def message : ParseProblem → String
  | .unsupported suffix => s!"Unsupported file type: {suffix}"
  | .unreadable reason => s!"Cannot read file: {reason}"
  | .undecodable fault => s!"File is not valid UTF-8: {fault.message}"
  | .faulty line column => s!"Syntax error at line {line}, column {column}"

end ParseProblem

structure SourceFile where
  path : Path
  source : Bytes
  tree : Node
  deriving Inhabited

def SourceFile.name (f : SourceFile) : String := f.path.toString

namespace Grammar

def faultAt (source : Bytes) (n : Node) : ParseProblem :=
  .faulty (source.row n.start + 1) (source.column n.start + 1)

def parse (g : Grammar) (language : Language) (source : Bytes) : Except ParseProblem Node :=
  let tree := g language source
  if tree.hasFault then .error (faultAt source (tree.firstFault?.getD tree)) else .ok tree

theorem parse_eq_ok (g : Grammar) (language : Language) (source : Bytes) (tree : Node) :
    g.parse language source = .ok tree ↔ g language source = tree ∧ tree.hasFault = false := by
  unfold parse
  constructor
  · intro h
    dsimp only at h
    split at h
    · cases h
    · next hf => cases h; exact ⟨rfl, by simpa using hf⟩
  · rintro ⟨rfl, hf⟩
    simp [hf]

def parseFile (g : Grammar) (path : Path) (source : Bytes) : Except ParseProblem SourceFile := do
  let some language := Language.ofPath? path | .error (.unsupported path.suffix)
  let _ ← (Utf8.decode source).mapError .undecodable
  return ⟨path, source, ← g.parse language source⟩

end Grammar

end Deadwood
