import Deadwood.Surgery.Outcome
import Mathlib

/-!
The books of a surgery report. Statistics are sums over outcomes, in whatever order these come, and
every outcome enters each of its counters once: so the counters, the errors and the outcomes agree
(`counters_balance`).
-/
namespace Deadwood

namespace Outcome

/-- The nodes and lines that a commit removed. -/
def removal? : Outcome → Option (Nat × Int)
  | .committed _ lines nodes _ _ => some (nodes, lines)
  | _ => none

def isNoOp : Outcome → Bool
  | .noOp _ => true
  | _ => false

theorem isInternalError_iff {x : Outcome} :
    x.isInternalError = true ↔ ∃ file message, x = .rolledBack file .internalError message := by
  constructor
  · intro h
    cases x with
    | rolledBack file reason message =>
      cases reason with
      | internalError => exact ⟨file, message, rfl⟩
      | generationError | tooAggressive | syntaxError => cases h
    | committed | skipped | noOp => cases h
  · rintro ⟨file, message, rfl⟩
    rfl

end Outcome

namespace Statistics

theorem add_def (a b : Statistics) : a + b = a.add b := rfl

instance : Zero Statistics := ⟨{}⟩

instance : AddCommMonoid Statistics where
  add_assoc a b c := by simp only [add_def, add, Nat.add_assoc, Int.add_assoc]
  add_comm a b := by simp only [add_def, add, Nat.add_comm, Int.add_comm]
  zero_add a := by
    show add {} a = a
    simp only [add, Nat.zero_add, Int.zero_add]
  add_zero a := by
    show add a {} = a
    simp only [add, Nat.add_zero, Int.add_zero]
  nsmul := nsmulRec

theorem ofOutcomes_eq_sum (outcomes : List Outcome) :
    ofOutcomes outcomes = (outcomes.map ofOutcome).sum := by
  rw [List.sum_eq_foldl, List.foldl_map]
  rfl

theorem ofOutcomes_cons (x : Outcome) (xs : List Outcome) :
    ofOutcomes (x :: xs) = ofOutcome x + ofOutcomes xs := by
  rw [ofOutcomes_eq_sum, ofOutcomes_eq_sum, List.map_cons, List.sum_cons]

theorem ofOutcomes_perm {xs ys : List Outcome} (h : xs.Perm ys) : ofOutcomes xs = ofOutcomes ys := by
  rw [ofOutcomes_eq_sum, ofOutcomes_eq_sum]
  exact (h.map _).sum_eq

/-- How the counters go with each other and with the outcomes that they count. -/
structure Balances (s : Statistics) (outcomes : List Outcome) : Prop where
  analyzed_eq_length : s.filesAnalyzed = outcomes.length
  attempted_eq : s.modificationsAttempted = s.modificationsSuccessful + s.modificationsFailed +
    s.validationsFailed + s.rejectedTooAggressive
  analyzed_eq : s.filesAnalyzed = s.modificationsAttempted + s.filesSkipped +
    outcomes.countP Outcome.isNoOp
  modified_eq : s.filesModified = s.modificationsSuccessful
  skipped_eq : s.filesSkipped = s.syntaxErrors
  nodes_eq : s.nodesRemoved = ((outcomes.filterMap Outcome.removal?).map (·.1)).sum
  lines_eq : s.linesRemoved = ((outcomes.filterMap Outcome.removal?).map (·.2)).sum
  errors_eq : (outcomes.filterMap Outcome.error?).length =
    s.filesSkipped + s.modificationsFailed + s.validationsFailed

theorem Balances.append {s t : Statistics} {xs ys : List Outcome} (hs : s.Balances xs)
    (ht : t.Balances ys) : (s + t).Balances (xs ++ ys) where
  analyzed_eq_length := by
    rw [List.length_append, ← hs.analyzed_eq_length, ← ht.analyzed_eq_length]
    rfl
  attempted_eq := by
    have hs := hs.attempted_eq
    have ht := ht.attempted_eq
    simp only [add_def, add]
    omega
  analyzed_eq := by
    have hs := hs.analyzed_eq
    have ht := ht.analyzed_eq
    simp only [add_def, add, List.countP_append]
    omega
  modified_eq := congrArg₂ (· + ·) hs.modified_eq ht.modified_eq
  skipped_eq := congrArg₂ (· + ·) hs.skipped_eq ht.skipped_eq
  nodes_eq := by
    rw [List.filterMap_append, List.map_append, List.sum_append, ← hs.nodes_eq, ← ht.nodes_eq]
    rfl
  lines_eq := by
    rw [List.filterMap_append, List.map_append, List.sum_append, ← hs.lines_eq, ← ht.lines_eq]
    rfl
  errors_eq := by
    rw [List.filterMap_append, List.length_append, hs.errors_eq, ht.errors_eq]
    simp only [add_def, add]
    omega

/-- Whatever the outcome, its own counters balance. -/
theorem balances_ofOutcome (x : Outcome) : (ofOutcome x).Balances [x] := by
  cases x with
  | committed file lines nodes names dryRun =>
    exact ⟨rfl, rfl, rfl, rfl, rfl, rfl, (Int.add_zero lines).symm, rfl⟩
  | rolledBack file reason message =>
    cases reason with
    | generationError | tooAggressive | syntaxError | internalError =>
      exact ⟨rfl, rfl, rfl, rfl, rfl, rfl, rfl, rfl⟩
  | skipped file message => exact ⟨rfl, rfl, rfl, rfl, rfl, rfl, rfl, rfl⟩
  | noOp file => exact ⟨rfl, rfl, rfl, rfl, rfl, rfl, rfl, rfl⟩

theorem balances_ofOutcomes (outcomes : List Outcome) : (ofOutcomes outcomes).Balances outcomes := by
  induction outcomes with
  | nil => exact ⟨rfl, rfl, rfl, rfl, rfl, rfl, rfl, rfl⟩
  | cons x xs ih =>
    rw [ofOutcomes_cons]
    exact (balances_ofOutcome x).append ih

end Statistics

namespace SurgeryReport

variable (o : SurgeryOptions) (xs : List Outcome) (backup : Json) (warnings : List String)

theorem statistics_ofOutcomes :
    (ofOutcomes o xs backup warnings).statistics = .ofOutcomes xs :=
  Statistics.ofOutcomes_perm (List.mergeSort_perm xs _)

theorem length_errors_ofOutcomes :
    (ofOutcomes o xs backup warnings).errors.length = xs.countP (·.error?.isSome) := by
  rw [errors, List.length_filterMap_eq_countP]
  simp only [Option.isSome_map]
  exact (List.mergeSort_perm xs _).countP_eq _

theorem isSuccess_ofOutcomes :
    (ofOutcomes o xs backup warnings).isSuccess = ! xs.any Outcome.isInternalError := by
  rw [isSuccess, Bool.eq_iff_iff]
  simp [ofOutcomes]

/-- The counters, the errors and the success of a report are those of its outcomes. -/
theorem counters_balance (o : SurgeryOptions) (outcomes : List Outcome) (backup : Json)
    (warnings : List String) :
    (ofOutcomes o outcomes backup warnings).statistics.Balances outcomes ∧
      (ofOutcomes o outcomes backup warnings).errors.length =
        (ofOutcomes o outcomes backup warnings).statistics.filesSkipped +
          (ofOutcomes o outcomes backup warnings).statistics.modificationsFailed +
          (ofOutcomes o outcomes backup warnings).statistics.validationsFailed ∧
      ((ofOutcomes o outcomes backup warnings).isSuccess = false ↔
        ∃ file message, .rolledBack file .internalError message ∈ outcomes) := by
  have hbalances : (ofOutcomes o outcomes backup warnings).statistics.Balances outcomes := by
    rw [statistics_ofOutcomes]
    exact Statistics.balances_ofOutcomes outcomes
  refine ⟨hbalances, ?_, ?_⟩
  · -- An error entry is made exactly of an outcome that reports an error.
    rw [length_errors_ofOutcomes, ← hbalances.errors_eq, List.length_filterMap_eq_countP]
  · simp only [isSuccess_ofOutcomes, Bool.not_eq_false', List.any_eq_true,
      Outcome.isInternalError_iff]
    constructor
    · rintro ⟨-, hmem, file, message, rfl⟩
      exact ⟨file, message, hmem⟩
    · rintro ⟨file, message, hmem⟩
      exact ⟨_, hmem, file, message, rfl⟩

end SurgeryReport

end Deadwood
