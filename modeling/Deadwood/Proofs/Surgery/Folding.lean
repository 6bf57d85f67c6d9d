import Deadwood.Proofs.Sorting
import Deadwood.Proofs.Surgery.Balance

/-!
Reports of more outcomes. The counters of a report add up over parts of the outcomes, whatever order
these come in, and more outcomes never make a run safer. Only outcomes of one file are told apart by
their order (`report_folds`).
-/
namespace Deadwood

namespace Statistics

def counters (s : Statistics) : List Int :=
  [s.filesAnalyzed, s.filesModified, s.filesSkipped, s.syntaxErrors, s.modificationsAttempted,
    s.modificationsSuccessful, s.modificationsFailed, s.validationsFailed, s.rejectedTooAggressive,
    s.nodesRemoved, s.linesRemoved]

theorem counters_add (a b : Statistics) :
    (a + b).counters = List.zipWith (· + ·) a.counters b.counters := by
  simp [counters, add_def, add]

theorem ofOutcomes_append (xs ys : List Outcome) :
    ofOutcomes (xs ++ ys) = ofOutcomes xs + ofOutcomes ys := by
  rw [ofOutcomes_eq_sum, ofOutcomes_eq_sum, ofOutcomes_eq_sum, List.map_append, List.sum_append]

end Statistics

/-- More failures and errors never raise the score. -/
theorem safetyScore_anti {s t : Statistics} {errors errors' : Nat} (o : SurgeryOptions)
    (hfaults : s.syntaxErrors ≤ t.syntaxErrors)
    (hfailed : s.modificationsFailed ≤ t.modificationsFailed)
    (hvalidation : s.validationsFailed ≤ t.validationsFailed) (herrors : errors ≤ errors') :
    safetyScore t errors' o ≤ safetyScore s errors o := by
  unfold safetyScore
  dsimp only
  omega

namespace SurgeryReport

variable (o : SurgeryOptions) (xs ys : List Outcome) (backup : Json) (warnings : List String)

theorem score_ofOutcomes : (ofOutcomes o xs backup warnings).score =
    safetyScore (.ofOutcomes xs) (xs.countP (·.error?.isSome)) o := by
  rw [score, statistics_ofOutcomes, length_errors_ofOutcomes]
  rfl

theorem score_append_le :
    (ofOutcomes o (xs ++ ys) backup warnings).score ≤ (ofOutcomes o xs backup warnings).score := by
  rw [score_ofOutcomes, score_ofOutcomes, Statistics.ofOutcomes_append, List.countP_append]
  exact safetyScore_anti o (Nat.le_add_right _ _) (Nat.le_add_right _ _) (Nat.le_add_right _ _)
    (Nat.le_add_right _ _)

/-- The counters of a report add up over parts of its outcomes; in another order the outcomes give
the same counters, success, number of errors and score, and the same report if no two are of one
file; further outcomes never raise the score, which is between 0 and 100. -/
theorem report_folds (o : SurgeryOptions) (xs ys : List Outcome) (backup : Json)
    (warnings : List String) :
    (ofOutcomes o (xs ++ ys) backup warnings).statistics.counters =
        List.zipWith (· + ·) (ofOutcomes o xs backup warnings).statistics.counters
          (ofOutcomes o ys backup warnings).statistics.counters ∧
      (∀ zs, xs.Perm zs →
        (ofOutcomes o xs backup warnings).statistics =
          (ofOutcomes o zs backup warnings).statistics ∧
        (ofOutcomes o xs backup warnings).isSuccess =
          (ofOutcomes o zs backup warnings).isSuccess ∧
        (ofOutcomes o xs backup warnings).errors.length =
          (ofOutcomes o zs backup warnings).errors.length ∧
        (ofOutcomes o xs backup warnings).score = (ofOutcomes o zs backup warnings).score ∧
        ((xs.map Outcome.file).Nodup →
          ofOutcomes o xs backup warnings = ofOutcomes o zs backup warnings)) ∧
      (ofOutcomes o (xs ++ ys) backup warnings).score ≤ (ofOutcomes o xs backup warnings).score ∧
      0 ≤ (ofOutcomes o xs backup warnings).score ∧
      (ofOutcomes o xs backup warnings).score ≤ 100 := by
  refine ⟨?_, fun zs hperm => ?_, score_append_le o xs ys backup warnings, safetyScore_bounds _ _ _⟩
  · simp only [statistics_ofOutcomes]
    rw [Statistics.ofOutcomes_append, Statistics.counters_add]
  · have hstatistics := Statistics.ofOutcomes_perm hperm
    have herrors := hperm.countP_eq (·.error?.isSome)
    simp only [statistics_ofOutcomes, isSuccess_ofOutcomes, length_errors_ofOutcomes,
      score_ofOutcomes]
    refine ⟨hstatistics, ?_, herrors, by rw [hstatistics, herrors], fun hfiles => ?_⟩
    · rw [hperm.any_eq]
    · -- The sorted outcomes are the same, and the report is made of them.
      unfold ofOutcomes
      rw [mergeSort_eq_of_perm Outcome.file hperm hfiles]

namespace Sample

def outcomes : List Outcome :=
  [.committed "b.js" 3 1 ["f"] false, .skipped "a.js" "unexpected end"]

def others : List Outcome := [.rolledBack "c.js" .internalError "disk full"]

end Sample

theorem report_folds_sample :
    Sample.outcomes.Perm Sample.outcomes.reverse ∧ (Sample.outcomes.map Outcome.file).Nodup ∧
      ofOutcomes {} Sample.outcomes .null [] = ofOutcomes {} Sample.outcomes.reverse .null [] ∧
      (ofOutcomes {} (Sample.outcomes ++ Sample.others) .null []).score ≤
        (ofOutcomes {} Sample.outcomes .null []).score := by
  have hperm : Sample.outcomes.Perm Sample.outcomes.reverse := (List.reverse_perm _).symm
  have hfiles : (Sample.outcomes.map Outcome.file).Nodup := by decide
  have h := report_folds {} Sample.outcomes Sample.others .null []
  exact ⟨hperm, hfiles, (h.2.1 _ hperm).2.2.2.2 hfiles, h.2.2.1⟩

/-- Outcomes of one file keep the order that they came in. -/
example : (ofOutcomes {} [.noOp "a.js", .skipped "a.js" "m"] .null []).outcomes.map Outcome.status ≠
    (ofOutcomes {} [.skipped "a.js" "m", .noOp "a.js"] .null []).outcomes.map Outcome.status := by
  simp [ofOutcomes, List.mergeSort, Outcome.file, Outcome.status]

end SurgeryReport

end Deadwood
