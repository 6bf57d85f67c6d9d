import Deadwood.Proofs.Number.Rounding
import Deadwood.Proofs.Removal.Report
import Deadwood.Proofs.Removal.Tally
import Deadwood.Proofs.Surgery.Transaction
import Mathlib.Algebra.Order.Field.Basic
import Mathlib.Algebra.Order.Field.Rat

/-!
Lines before and after. What a plan generates has no more line breaks than its source
(`count_lineFeed_le`), so no commit reports lines that were added, and the share of lines that are
gone stays below one, where rounding cannot take it past a threshold of one.
-/
namespace Deadwood

/-- The nodes of a text without fault lie in order, between characters. -/
def Grammar.Orderly (g : Grammar) : Prop :=
  ∀ language source tree, Utf8.isValid source = true → g.parse language source = .ok tree →
    WellFormed source tree ∧ OnCharacters source tree

theorem Grammar.Sound.orderly {g : Grammar} (h : g.Sound) : g.Orderly :=
  fun language source tree hs hparse =>
    ⟨(h language source tree hs hparse).1, (h language source tree hs hparse).2.1⟩

theorem count_lineFeed_mark {text : String} (h : text ∈ ["\x7b ", " \x7d", ", "]) :
    (Utf8.encode text).count Bytes.lineFeed = 0 := by
  simp only [List.mem_cons, List.not_mem_nil, or_false] at h
  rcases h with rfl | rfl | rfl <;> decide +kernel

namespace Plan

variable {t : Targets} {source content : Bytes} {tree : Node} {plan : Plan}

/-- The edited text has no more line breaks than the source. -/
theorem count_lineFeed_le (hw : WellFormed source tree) (hc : OnCharacters source tree)
    (h : ofTree t source tree = .ok plan) (happly : Edit.apply source plan.edits = .ok content) :
    content.count Bytes.lineFeed ≤ source.count Bytes.lineFeed := by
  obtain ⟨steps, rfl, hsteps⟩ := exists_steps h
  rw [Step.edits_run, List.nil_append] at happly
  have hsheds : ∀ e ∈ steps.flatMap (·.2.edits), e.Sheds (· == Bytes.lineFeed) 0 source := by
    intro e he
    obtain ⟨x, hx, he⟩ := List.mem_flatMap.1 he
    have hform := form_of_change (hsteps.change_eq x hx)
    obtain ⟨slices, hslices, -⟩ := hform.exists_slices hw hc (hsteps.of_tree x hx) he
    exact hslices.countP_le fun _ => count_lineFeed_mark
  obtain ⟨merged, -, hcount⟩ := Edit.countP_le_of_apply happly (hsteps.fitsIn hw) hsheds
  rwa [Nat.zero_mul] at hcount

end Plan

namespace Mutation

variable {g : Grammar} {o : SurgeryOptions} {path : Path} {issues : List Issue}
  {language : Language} {source content : Bytes} {plan : Plan} {r : Rejection}

/-- The share of lines that are gone, in exact arithmetic. -/
def share (before after : Nat) : ℚ := ((before : ℚ) - after) / before

theorem share_bounds {before after : Nat} (hpos : 0 < after) (hle : after ≤ before) :
    0 ≤ share before after ∧ share before after < 1 := by
  have hbefore : (0 : ℚ) < before := Nat.cast_pos.2 (hpos.trans_le hle)
  have hafter : (0 : ℚ) < after := Nat.cast_pos.2 hpos
  have hcast : (after : ℚ) ≤ before := Nat.cast_le.2 hle
  unfold share
  rw [div_lt_one hbefore]
  exact ⟨div_nonneg (sub_nonneg.2 hcast) hbefore.le, sub_lt_self _ hafter⟩

/-- The double that is compared is the rounded share. -/
theorem reductionRatio_eq {before after : Nat} (hpos : 0 < after) (hle : after ≤ before) :
    reductionRatio before after = .roundQuotient false (before - after) before := by
  unfold reductionRatio
  rw [if_neg (by omega), decide_eq_false (by omega)]
  congr 1
  omega

theorem checkReduction_of_le {before after : Nat} (hpos : 0 < after) (hle : after ≤ before)
    (hone : o.threshold = .one) : checkReduction o before after = .ok () := by
  rw [checkReduction_eq_ok, hone, reductionRatio_eq hpos hle]
  exact fun _ => Binary64.lt_one_roundQuotient (Nat.sub_le before after)

/-- Where the share is within bounds, the gates reject for something else. -/
theorem reason_ne_tooAggressive
    (hcheck : ∀ content, Edit.apply source plan.edits = .ok content →
      checkReduction o (lineCount source) (lineCount content) = .ok ())
    (h : gates g o language source plan = .error r) : r.reason ≠ .tooAggressive := by
  unfold gates at h
  cases hgen : generate source plan.edits with
  | error r' =>
    simp only [hgen, bind, Except.bind, Except.error.injEq] at h
    subst h
    rw [reason_of_generate hgen]
    simp
  | ok content =>
    have hok := hcheck content (generate_eq_ok.1 hgen).1
    simp only [hgen, hok, bind, Except.bind, Except.mapError] at h
    cases hval : validate g o language content with
    | error r' =>
      simp only [hval, Except.error.injEq] at h
      subst h
      simp [reason_of_validate hval]
    | ok u => simp [hval, pure, Except.pure] at h

section Run

variable {σ : Type} [Store σ] {files : σ}

/-- A run that rolls back has had its edits rejected. -/
theorem reject_of_run {file message : String} {reason : RollbackReason}
    (h : (run g o path issues files).result = .ok (.rolledBack file reason message)) :
    ∃ r, verdict g o path issues (Store.read files path) = .ok (.reject r) ∧
      r.reason = reason := by
  unfold run at h
  cases hv : verdict g o path issues (Store.read files path) with
  | error fault => simp [hv] at h
  | ok v =>
    simp only [hv] at h
    rcases result_finish o path files v with hresult | ⟨crash, hresult⟩
    · rw [hresult, Except.ok.injEq] at h
      cases v with
      | skip | leave | commit => cases h
      | reject r =>
        simp only [outcome, Outcome.rolledBack.injEq] at h
        exact ⟨r, rfl, h.2.1⟩
    · rw [hresult] at h
      cases h

end Run

/-- Surgery never adds lines. Every tree has a plan, and a text generated from it has at most as
many line breaks as the source, so that the share of lines that are gone is at least zero and below
one; no run commits a negative number of lines, and with a threshold of one no run rejects its edits
as too aggressive. -/
theorem lines_never_grow :
    (∀ (t : Targets) (source : Bytes) (tree : Node), WellFormed source tree →
      OnCharacters source tree →
      ∃ plan, Plan.ofTree t source tree = .ok plan ∧
        (Grammatical tree → ∃ content, Edit.apply source plan.edits = .ok content) ∧
        ∀ content, Edit.apply source plan.edits = .ok content →
          content.count Bytes.lineFeed ≤ source.count Bytes.lineFeed ∧
          reductionRatio (lineCount source) (lineCount content) =
            .roundQuotient false (lineCount source - lineCount content) (lineCount source) ∧
          0 ≤ share (lineCount source) (lineCount content) ∧
          share (lineCount source) (lineCount content) < 1) ∧
    ∀ (σ : Type) [Store σ] (g : Grammar) (o : SurgeryOptions) (path : Path) (issues : List Issue)
      (files : σ), g.Orderly →
      (∀ file lines nodes names dryRun,
        (run g o path issues files).result = .ok (.committed file lines nodes names dryRun) →
          0 ≤ lines) ∧
      (o.threshold = .one → ∀ file message,
        (run g o path issues files).result ≠ .ok (.rolledBack file .tooAggressive message)) := by
  have lineCount_pos : ∀ text : Bytes, 0 < lineCount text := fun text => Nat.succ_pos _
  constructor
  · intro t source tree hw hc
    obtain ⟨plan, hplan⟩ := Plan.exists_plan t hw hc
    refine ⟨plan, hplan, fun hg => Plan.exists_apply hw hg hplan, fun content happly => ?_⟩
    have hle := Plan.count_lineFeed_le hw hc hplan happly
    have hlines : lineCount content ≤ lineCount source := Nat.succ_le_succ hle
    exact ⟨hle, reductionRatio_eq (lineCount_pos content) hlines,
      share_bounds (lineCount_pos content) hlines⟩
  · intro σ _ g o path issues files hg
    have lines_le : ∀ {language source tree plan content}, Utf8.isValid source = true →
        g.parse language source = .ok tree → Plan.ofTree (targets o issues) source tree = .ok plan →
        Edit.apply source plan.edits = .ok content → lineCount content ≤ lineCount source := by
      intro language source tree plan content hvalid hparse hplan happly
      obtain ⟨hw, hc⟩ := hg language source tree hvalid hparse
      exact Nat.succ_le_succ (Plan.count_lineFeed_le hw hc hplan happly)
    constructor
    · intro file lines nodes names dryRun hrun
      obtain ⟨content, hv, -⟩ := commit_of_run hrun
      obtain ⟨source, language, tree, plan, -, hgated, rfl, -⟩ := gated_of_commit hv
      have hle := lines_le hgated.isValid hgated.parsed hgated.planned hgated.applied
      omega
    · intro hone file message hrun
      obtain ⟨r, hv, hreason⟩ := reject_of_run hrun
      rcases verdict_cases hv with ⟨p, h⟩ | h | ⟨source, language, tree, plan, -, -, hvalid,
        hparse, hplan, -, ⟨r', hgates, h⟩ | ⟨content, -, h⟩⟩
      · cases h
      · cases h
      · obtain rfl : r = r' := Verdict.reject.inj h
        refine reason_ne_tooAggressive (fun content happly => ?_) hgates hreason
        exact checkReduction_of_le (lineCount_pos content)
          (lines_le hvalid hparse hplan happly) hone
      · cases h

theorem lines_never_grow_sample :
    (∃ plan content, Plan.ofTree Deadwood.Sample.targets Deadwood.Sample.source
        Deadwood.Sample.tree = .ok plan ∧
      Edit.apply Deadwood.Sample.source plan.edits = .ok content ∧
      content.count Bytes.lineFeed ≤ Deadwood.Sample.source.count Bytes.lineFeed) ∧
    (∃ file lines nodes names dryRun, (run Sample.grammar Sample.options Sample.path Sample.issues
      Sample.files).result = .ok (.committed file lines nodes names dryRun) ∧ 0 ≤ lines) ∧
    ∀ file message, (run Sample.grammar { threshold := .one } Sample.path Sample.issues
      Sample.files).result ≠ .ok (.rolledBack file .tooAggressive message) := by
  obtain ⟨plan, hplan, hgenerated, hcount⟩ := lines_never_grow.1 Deadwood.Sample.targets _ _
    Deadwood.Sample.wellFormed Deadwood.Sample.onCharacters
  obtain ⟨content, hcontent⟩ := hgenerated Deadwood.Sample.grammatical
  have hruns := fun o => lines_never_grow.2 _ Sample.grammar o Sample.path Sample.issues
    Sample.files Sample.sound.orderly
  exact ⟨⟨plan, content, hplan, hcontent, (hcount content hcontent).1⟩,
    ⟨_, _, _, _, _, Sample.result_eq, (hruns _).1 _ _ _ _ _ Sample.result_eq⟩, (hruns _).2 rfl⟩

end Mutation

end Deadwood
