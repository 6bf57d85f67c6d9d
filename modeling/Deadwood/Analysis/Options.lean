import Deadwood.Analysis.Channel

/-!
What an analysis run can be told, and the values it refuses.
-/
namespace Deadwood

inductive OptionProblem
  | minDuplicateLines
  | maxComplexity
  | conservativeThreshold
  | maxChangesPerFile
  deriving DecidableEq, Repr

def OptionProblem.message : OptionProblem → String
  | .minDuplicateLines => "min_duplicate_lines must be >= 0"
  | .maxComplexity => "max_complexity must be at least 1"
  | .conservativeThreshold => "conservative_threshold must be between 0 and 1"
  | .maxChangesPerFile => "max_changes_per_file must be at least 1"

structure AnalysisOptions where
  minDuplicateLines : Int := 3
  forms : ChannelForms := {}
  maxComplexity : Int := 10
  deriving DecidableEq, Repr

namespace AnalysisOptions

def check (o : AnalysisOptions) : Except OptionProblem AnalysisOptions :=
  if o.minDuplicateLines < 0 then .error .minDuplicateLines
  else if o.maxComplexity < 1 then .error .maxComplexity
  else .ok o

theorem check_default : check {} = .ok {} := rfl

end AnalysisOptions

end Deadwood
