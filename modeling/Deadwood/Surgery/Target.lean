import Deadwood.Analysis.Issue
import Deadwood.Surgery.Options

/-!
Which names to remove from which file. Only issues about unused symbols count; of those of one file
the first few in the order of line and name are taken, within a budget.
-/
namespace Deadwood.Target

def kind? : Operation → Option IssueKind
  | .unusedImports => some .unusedImport
  | .unusedFunctions => some .unusedFunction
  | .unsupported _ => none

def wanted (operations : List Operation) (i : Issue) : Bool :=
  (operations.filterMap kind?).contains i.kind

def symbolLe (a b : Symbol) : Bool := ((compare a.line b.line).then (compare a.name b.name)).isLE

def eligible (issues : List Issue) (operations : List Operation) : List Symbol :=
  ((issues.filter (wanted operations)).filterMap Issue.unusedSymbol?).mergeSort symbolLe

/-- Adds symbols under their names while the budget lasts; the first of a name stands. -/
def take (budget : Nat) : Keyed String SymbolKind → List Symbol → Keyed String SymbolKind
  | taken, [] => taken
  | taken, s :: rest =>
    if budget ≤ taken.length then taken
    else take budget (Keyed.setDefault taken s.name s.kind) rest

def ofIssues (issues : List Issue) (budget : Nat) (operations : List Operation) :
    Keyed String SymbolKind :=
  take budget [] (eligible issues operations)

theorem length_take (budget : Nat) (taken : Keyed String SymbolKind) (l : List Symbol)
    (h : taken.length ≤ budget) : (take budget taken l).length ≤ budget := by
  induction l generalizing taken with
  | nil => exact h
  | cons s rest ih =>
    unfold take
    split
    · exact h
    · apply ih
      have := Keyed.length_modify_le taken s.name s.kind id
      simp only [Keyed.setDefault]
      omega

def byFile (issues : List Issue) : Keyed String (List Issue) :=
  Keyed.group Issue.file (issues.filter (·.unusedSymbol?.isSome))

end Deadwood.Target
