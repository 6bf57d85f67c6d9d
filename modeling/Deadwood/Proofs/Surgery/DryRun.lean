import Deadwood.Proofs.Removal.Loss
import Deadwood.Proofs.Sorting
import Deadwood.Proofs.Surgery.Sequence
import Mathlib.Data.String.Basic

/-!
Dry runs. Transactions on files of their own do not see each other's writes, so what becomes of each
file is decided by what it holds at the start, and deciding does not ask whether the run is dry.
Thus a dry run reports what the live run does (`dry_run_predicts_live_run`).
-/
namespace Deadwood

/-- In no text is there a name of blanks, commas and braces only. -/
def Grammar.Spells (g : Grammar) : Prop :=
  ∀ language source tree, Utf8.isValid source = true → g.parse language source = .ok tree →
    Plan.Spelled source tree

namespace Outcome

/-- The outcome as a run reports it that writes nothing. -/
def asDry : Outcome → Outcome
  | .committed file lines nodes names _ => .committed file lines nodes names true
  | o => o

def isCommitted : Outcome → Bool
  | .committed _ _ _ _ _ => true
  | _ => false

theorem file_asDry (x : Outcome) : x.asDry.file = x.file := by cases x <;> rfl

theorem error?_asDry (x : Outcome) : x.asDry.error? = x.error? := by cases x <;> rfl

theorem statistics_asDry (x : Outcome) : Statistics.ofOutcome x.asDry = Statistics.ofOutcome x := by
  cases x <;> rfl

end Outcome

theorem Statistics.ofOutcomes_asDry (outcomes : List Outcome) :
    ofOutcomes (outcomes.map Outcome.asDry) = ofOutcomes outcomes := by
  simp only [ofOutcomes, List.foldl_map, Outcome.statistics_asDry]

namespace Mutation

variable {g : Grammar} {o : SurgeryOptions} {issues : List Issue} {language : Language}

/-- What passes the gates is another text. -/
theorem Gated.content_ne {path : Path} {source content : Bytes} {tree : Node} {plan : Plan}
    (h : Gated g o path issues source language tree plan content) (hg : g.Sound)
    (hs : g.Spells) : content ≠ source := by
  obtain ⟨hw, hc, hgram⟩ := hg _ _ _ h.isValid h.parsed
  have hlt := Plan.weight_lt_of_apply hw hgram hc (hs _ _ _ h.isValid h.parsed) h.planned
    h.edits_ne_nil h.applied
  rintro rfl
  exact absurd hlt (lt_irrefl _)

theorem gates_dryRun (dry : Bool) (source : Bytes) (plan : Plan) :
    gates g { o with dryRun := dry } language source plan = gates g o language source plan := rfl

theorem verdictOf_dryRun (dry : Bool) (file : SourceFile) :
    verdictOf g { o with dryRun := dry } issues language file =
      verdictOf g o issues language file := by
  have htargets : targets { o with dryRun := dry } issues = targets o issues := rfl
  unfold verdictOf
  simp only [htargets, gates_dryRun]

/-- No verdict depends on whether the run is dry. -/
theorem verdict_dryRun (dry : Bool) (path : Path) (content : Except FileError Bytes) :
    verdict g { o with dryRun := dry } path issues content = verdict g o path issues content := by
  unfold verdict
  simp only [verdictOf_dryRun]

end Mutation

namespace Surgery

/-! ## What is decided at the start -/

section Decision

variable {g : Grammar} {o : SurgeryOptions} {files : Memory} {group : String × List Issue}

def decision (g : Grammar) (o : SurgeryOptions) (files : Memory) (group : String × List Issue) :
    Except Utf8.Fault Verdict :=
  Mutation.verdict g o (.ofString group.1) group.2 (files.read (.ofString group.1))

def reported (o : SurgeryOptions) (file : String) : Except Utf8.Fault Verdict → Outcome
  | .ok v => Mutation.outcome o (Path.ofString file).toString v
  | .error fault => crashed file (.rebuild fault)

def text? (o : SurgeryOptions) : Except Utf8.Fault Verdict → Option Bytes
  | .ok v => Mutation.written? o v
  | .error _ => none

theorem decision_dryRun (dry : Bool) :
    decision g { o with dryRun := dry } files group = decision g o files group :=
  Mutation.verdict_dryRun dry _ _

theorem decision_of_read {after : Memory}
    (h : after.read (.ofString group.1) = files.read (.ofString group.1)) :
    decision g o after group = decision g o files group := by
  rw [decision, decision, h]

theorem reported_dry (file : String) (d : Except Utf8.Fault Verdict) :
    reported { o with dryRun := true } file d =
      (reported { o with dryRun := false } file d).asDry := by
  cases d with
  | error fault => rfl
  | ok v => cases v <;> rfl

theorem isSome_text? (hlive : o.dryRun = false) (file : String) (d : Except Utf8.Fault Verdict) :
    (text? o d).isSome = (reported o file d).isCommitted := by
  cases d with
  | error fault => rfl
  | ok v => cases v <;> simp [text?, reported, Mutation.written?, Mutation.outcome, hlive,
      Outcome.isCommitted]

theorem file_reported {file : String} (hnormal : (Path.ofString file).toString = file)
    (d : Except Utf8.Fault Verdict) : (reported o file d).file = file := by
  cases d with
  | error fault => rfl
  | ok v => cases v <;> exact hnormal

/-- A text to write has passed the gates. -/
theorem gated_of_text {text : Bytes} (h : text? o (decision g o files group) = some text) :
    ∃ source language tree plan, files.read (.ofString group.1) = .ok source ∧
      Mutation.Gated g o (.ofString group.1) group.2 source language tree plan text := by
  cases hv : decision g o files group with
  | error fault => simp [hv, text?] at h
  | ok v =>
    rw [hv] at h
    obtain ⟨lines, nodes, names, rfl, -⟩ := Mutation.written?_eq_some h
    obtain ⟨source, language, tree, plan, hread, hgated, -⟩ := Mutation.gated_of_commit hv
    exact ⟨source, language, tree, plan, hread, hgated⟩

/-- The files after a write, if there is one. -/
def afterWrite (files : Memory) (path : Path) (text : Option Bytes) : Memory :=
  text.elim files fun text => (files.write path text).2

theorem read_afterWrite {path q : Path} (hq : q ≠ path) (text : Option Bytes) :
    (afterWrite files path text).read q = files.read q := by
  cases text with
  | none => rfl
  | some text => exact Memory.read_write_of_ne hq text

theorem unwritable_afterWrite (path : Path) (text : Option Bytes) :
    (afterWrite files path text).unwritable = files.unwritable := by
  cases text with
  | none => rfl
  | some text => exact Memory.unwritable_write text

theorem writes_afterWrite {path : Path} (hwrite : path ∉ files.unwritable) (text : Option Bytes) :
    (afterWrite files path text).writes =
      files.writes ++ if text.isSome then [path] else [] := by
  cases text with
  | none => simp [afterWrite]
  | some text => simp [afterWrite, Memory.write_eq hwrite]

theorem finish_memory {path : Path} (hwrite : path ∉ files.unwritable) (v : Verdict) :
    Mutation.finish o path files v = ⟨.ok (Mutation.outcome o path.toString v),
      afterWrite files path (Mutation.written? o v),
      (Mutation.note? o path.toString v).toList⟩ := by
  unfold Mutation.finish
  cases Mutation.written? o v with
  | none => rfl
  | some text =>
    have hstore : Store.write files path text = _ := Memory.write_eq hwrite text
    simp only [hstore, afterWrite, Option.elim_some, Memory.write_eq hwrite text]

/-- Where writes succeed, a transaction does what is decided. -/
theorem transaction_of_decision (hwrite : .ofString group.1 ∉ files.unwritable) :
    (transaction g o group.1 group.2 files).result = reported o group.1 (decision g o files group) ∧
      (transaction g o group.1 group.2 files).files =
        afterWrite files (.ofString group.1) (text? o (decision g o files group)) := by
  rw [transaction_eq_resume]
  unfold resume mutate
  rw [show Mutation.verdict g o (.ofString group.1) group.2 (Store.read files (.ofString group.1)) =
    decision g o files group from rfl]
  cases decision g o files group with
  | error fault => exact ⟨rfl, rfl⟩
  | ok v =>
    dsimp only
    rw [finish_memory hwrite]
    exact ⟨rfl, rfl⟩

/-- What transactions do to the files when each does what is decided at the start. -/
structure AsDecided (g : Grammar) (o : SurgeryOptions) (files : Memory)
    (groups : List (String × List Issue)) (r : Run Memory (List Outcome)) : Prop where
  result_eq : r.result = groups.map fun group => reported o group.1 (decision g o files group)
  read_of_written : ∀ group ∈ groups, ∀ text, text? o (decision g o files group) = some text →
    r.files.read (.ofString group.1) = .ok text
  read_of_kept : ∀ q, (∀ group ∈ groups, (text? o (decision g o files group)).isSome = true →
    Path.ofString group.1 ≠ q) → r.files.read q = files.read q
  writes_eq : r.files.writes = files.writes ++
    (groups.filter fun group => (text? o (decision g o files group)).isSome).map
      fun group => Path.ofString group.1

end Decision

variable {g : Grammar} {o : SurgeryOptions}

/-- No transaction sees what another one writes. -/
theorem asDecided {groups : List (String × List Issue)} {files : Memory}
    (hpaths : (groups.map fun group => Path.ofString group.1).Nodup)
    (hwrite : ∀ group ∈ groups, Path.ofString group.1 ∉ files.unwritable) :
    AsDecided g o files groups (transactions g o groups files) := by
  induction groups generalizing files with
  | nil => exact ⟨rfl, by simp, by simp [transactions], by simp [transactions]⟩
  | cons group rest ih =>
    rw [List.map_cons, List.nodup_cons] at hpaths
    rw [List.forall_mem_cons] at hwrite
    obtain ⟨hresult, hfiles⟩ := transaction_of_decision (g := g) (o := o) hwrite.1
    have hne : ∀ x ∈ rest, Path.ofString x.1 ≠ .ofString group.1 := fun x hx hpath =>
      hpaths.1 (hpath ▸ List.mem_map_of_mem hx)
    generalize hnext : afterWrite files (.ofString group.1) (text? o (decision g o files group)) =
      next at hfiles
    have hsame : ∀ x ∈ rest, decision g o next x = decision g o files x := fun x hx =>
      decision_of_read (hnext ▸ read_afterWrite (hne x hx) _)
    have hrest : ∀ x ∈ rest, Path.ofString x.1 ∉ next.unwritable := fun x hx => by
      rw [← hnext, unwritable_afterWrite]
      exact hwrite.2 x hx
    have h := ih hpaths.2 hrest
    simp only [transactions, hresult, hfiles]
    refine ⟨?_, ?_, fun q hq => ?_, ?_⟩
    · rw [h.result_eq, List.map_cons]
      exact congrArg _ (List.map_congr_left fun x hx => by rw [hsame x hx])
    · rw [List.forall_mem_cons]
      constructor
      · intro text htext
        obtain ⟨source, _, _, _, hread, -⟩ := gated_of_text htext
        rw [h.read_of_kept _ fun x hx _ => hne x hx, ← hnext, htext]
        exact Memory.read_write_self hread (congrArg Prod.fst (Memory.write_eq hwrite.1 text))
      · intro x hx text htext
        exact h.read_of_written x hx text ((hsame x hx).symm ▸ htext)
    · rw [List.forall_mem_cons] at hq
      rw [h.read_of_kept q fun x hx hsome => hq.2 x hx (hsame x hx ▸ hsome), ← hnext]
      cases htext : text? o (decision g o files group) with
      | none => rfl
      | some text => exact read_afterWrite (Ne.symm (hq.1 (by rw [htext]; rfl))) _
    · have hfilter : (rest.filter fun x => (text? o (decision g o next x)).isSome) =
          rest.filter fun x => (text? o (decision g o files x)).isSome :=
        List.filter_congr fun x hx => by rw [hsame x hx]
      rw [h.writes_eq, hfilter, ← hnext, writes_afterWrite hwrite.1, List.append_assoc,
        List.filter_cons]
      split
      · rfl
      · rfl

/-! ## Operations -/

section Operation

variable {issues : List Issue} {files : Memory}
  {backup : Memory → Except BackupFailure BackupInfo × Memory}

/-- The files of the issues are written one way. -/
def Normal (issues : List Issue) : Prop := ∀ i ∈ issues, (Path.ofString i.file).toString = i.file

theorem Normal.oneName (h : Normal issues) : OneName issues := by
  intro i hi j hj hpath
  rw [← h i hi, ← h j hj, hpath]

theorem Normal.group (h : Normal issues) {group : String × List Issue}
    (hgroup : group ∈ orderedGroups issues) : (Path.ofString group.1).toString = group.1 := by
  obtain ⟨i, hi, -, hfile⟩ := Logged.exists_issue_of_mem_groups hgroup
  rw [← hfile, h i hi]

theorem pairwise_groups (issues : List Issue) :
    (orderedGroups issues).Pairwise fun a b => (compare a.1 b.1).isLE = true :=
  pairwise_mergeSort_key Prod.fst (Target.byFile issues)

/-- The backup is made, and leaves the files of the issues as they are. -/
def Spares (backup : Memory → Except BackupFailure BackupInfo × Memory) (issues : List Issue)
    (files : Memory) : Prop :=
  ∃ info after, backup files = (.ok info, after) ∧ after.unwritable = files.unwritable ∧
    ∀ i ∈ issues, after.read (.ofString i.file) = files.read (.ofString i.file)

theorem preflight_live (h : o.backup = true → Spares backup issues files) :
    ∃ taken, (preflight { o with dryRun := false } backup files).result = .ok taken ∧
      (preflight { o with dryRun := false } backup files).files.unwritable = files.unwritable ∧
      ∀ i ∈ issues, (preflight { o with dryRun := false } backup files).files.read
        (.ofString i.file) = files.read (.ofString i.file) := by
  unfold preflight
  cases hbackup : o.backup with
  | false => exact ⟨.null, by simp [needsBackup]⟩
  | true =>
    obtain ⟨info, after, heq, hunwritable, hread⟩ := h hbackup
    simp only [needsBackup, heq]
    exact ⟨_, rfl, hunwritable, hread⟩

theorem preflight_dry (o : SurgeryOptions)
    (backup : Memory → Except BackupFailure BackupInfo × Memory) (files : Memory) :
    preflight { o with dryRun := true } backup files = ⟨.ok .null, files, []⟩ := by
  simp [preflight, needsBackup]

/-- An operation reports what is decided once its backup is made, in the order of the files. -/
theorem operate_asDecided (hnormal : Normal issues) {taken : Json}
    (htaken : (preflight o backup files).result = .ok taken)
    (hwrite : ∀ i ∈ issues, Path.ofString i.file ∉ (preflight o backup files).files.unwritable) :
    ∃ report, (operate g o backup issues files).result = .ok report ∧
      report.statistics = .ofOutcomes report.outcomes ∧
      AsDecided g o (preflight o backup files).files (orderedGroups issues)
        ⟨report.outcomes, (operate g o backup issues files).files, []⟩ := by
  have hgroups : ∀ group ∈ orderedGroups issues,
      Path.ofString group.1 ∉ (preflight o backup files).files.unwritable := by
    intro group hgroup
    obtain ⟨i, hi, -, hfile⟩ := Logged.exists_issue_of_mem_groups hgroup
    exact hfile ▸ hwrite i hi
  obtain ⟨hreport, hfiles⟩ := operate_of_preflight (g := g) issues htaken
  have h := asDecided (g := g) (o := o) (nodup_paths hnormal.oneName) hgroups
  generalize transactions g o (orderedGroups issues) (preflight o backup files).files = r at *
  -- The outcomes come in the order of the files already.
  have hsorted : r.result.mergeSort (fun a b => (compare a.file b.file).isLE) = r.result := by
    refine List.mergeSort_of_pairwise ?_
    rw [h.result_eq, List.pairwise_map]
    refine (pairwise_groups issues).imp_of_mem fun ha hb hle => ?_
    rw [file_reported (hnormal.group ha), file_reported (hnormal.group hb)]
    exact hle
  refine ⟨_, hreport, rfl, ?_⟩
  rw [SurgeryReport.ofOutcomes, hsorted, hfiles]
  exact ⟨h.result_eq, h.read_of_written, h.read_of_kept, h.writes_eq⟩

/-- A report says what another one says, apart from its commits being dry. -/
structure Foretells (dry live : SurgeryReport) : Prop where
  outcomes_eq : dry.outcomes = live.outcomes.map Outcome.asDry
  errors_eq : dry.errors = live.errors
  statistics_eq : dry.statistics = live.statistics

theorem foretells_of_outcomes {dry live : SurgeryReport}
    (hdry : dry.statistics = .ofOutcomes dry.outcomes)
    (hlive : live.statistics = .ofOutcomes live.outcomes)
    (h : dry.outcomes = live.outcomes.map Outcome.asDry) : Foretells dry live where
  outcomes_eq := h
  errors_eq := by
    unfold SurgeryReport.errors
    rw [h, List.filterMap_map]
    refine List.filterMap_congr fun x _ => ?_
    rw [Function.comp_apply, Outcome.error?_asDry, Outcome.file_asDry]
  statistics_eq := by rw [hdry, hlive, h, Statistics.ofOutcomes_asDry]

/-- The files of the commits hold what has passed the gates, each written once, and every other file
what it held. -/
structure Carries (g : Grammar) (o : SurgeryOptions) (issues : List Issue) (before after : Memory)
    (outcomes : List Outcome) : Prop where
  read_of_committed : ∀ x ∈ outcomes, x.isCommitted = true → ∃ group ∈ orderedGroups issues,
    group.1 = x.file ∧ ∃ source language tree plan content,
      before.read (.ofString x.file) = .ok source ∧
      Mutation.Gated g o (.ofString x.file) group.2 source language tree plan content ∧
      after.read (.ofString x.file) = .ok content
  read_of_kept : ∀ q, (∀ x ∈ outcomes, x.isCommitted = true → Path.ofString x.file ≠ q) →
    after.read q = before.read q
  writes_eq : after.writes = before.writes ++
    (outcomes.filter (·.isCommitted)).map fun x => Path.ofString x.file

/-- A file differs exactly if a commit says so. -/
theorem Carries.read_ne_iff {before after : Memory} {outcomes : List Outcome}
    (h : Carries g o issues before after outcomes) (hg : g.Sound) (hs : g.Spells) (q : Path) :
    after.read q ≠ before.read q ↔
      ∃ x ∈ outcomes, x.isCommitted = true ∧ Path.ofString x.file = q := by
  constructor
  · intro hne
    by_contra hnone
    push Not at hnone
    exact hne (h.read_of_kept q hnone)
  · rintro ⟨x, hx, hcommitted, rfl⟩
    obtain ⟨group, -, -, source, language, tree, plan, content, hbefore, hgated, hafter⟩ :=
      h.read_of_committed x hx hcommitted
    rw [hafter, hbefore, ne_eq, Except.ok.injEq]
    exact hgated.content_ne hg hs

theorem paths_of_committed {groups : List (String × List Issue)}
    {outcome : String × List Issue → Outcome} {writes : String × List Issue → Bool}
    (hfile : ∀ group ∈ groups, (outcome group).file = group.1)
    (hwrites : ∀ group, writes group = (outcome group).isCommitted) :
    (groups.filter writes).map (fun group => Path.ofString group.1) =
      ((groups.map outcome).filter (·.isCommitted)).map fun x => Path.ofString x.file := by
  have hsame : writes = (·.isCommitted) ∘ outcome := funext hwrites
  rw [hsame, List.filter_map, List.map_map]
  refine List.map_congr_left fun group hgroup => ?_
  rw [Function.comp_apply, hfile group (List.mem_of_mem_filter hgroup)]

theorem AsDecided.carries (hnormal : Normal issues) (hlive : o.dryRun = false)
    {r : Run Memory (List Outcome)} (h : AsDecided g o files (orderedGroups issues) r) :
    Carries g o issues files r.files r.result := by
  have hfile : ∀ group ∈ orderedGroups issues,
      (reported o group.1 (decision g o files group)).file = group.1 := fun group hgroup =>
    file_reported (hnormal.group hgroup) _
  rw [h.result_eq]
  refine ⟨?_, fun q hq => ?_, ?_⟩
  · rw [List.forall_mem_map]
    intro group hgroup hcommitted
    rw [← isSome_text? hlive, Option.isSome_iff_exists] at hcommitted
    obtain ⟨text, htext⟩ := hcommitted
    obtain ⟨source, language, tree, plan, hread, hgated⟩ := gated_of_text htext
    rw [hfile group hgroup]
    exact ⟨group, hgroup, rfl, source, language, tree, plan, text, hread, hgated,
      h.read_of_written group hgroup text htext⟩
  · rw [List.forall_mem_map] at hq
    refine h.read_of_kept q fun group hgroup hsome => ?_
    rw [← hfile group hgroup]
    exact hq group hgroup (isSome_text? hlive group.1 _ ▸ hsome)
  · rw [h.writes_eq, paths_of_committed hfile fun group => isSome_text? hlive group.1 _]

/-- A dry run reports what the live run does, and changes nothing. The live run writes the files of
its commits and no other, and where names are spelled it changes each. -/
theorem dry_run_predicts_live_run (g : Grammar) (o : SurgeryOptions) (hnormal : Normal issues)
    (hwrite : ∀ i ∈ issues, Path.ofString i.file ∉ files.unwritable)
    (hbackup : o.backup = true → Spares backup issues files) :
    ∃ dry live, (operate g { o with dryRun := true } backup issues files).result = .ok dry ∧
      (operate g { o with dryRun := false } backup issues files).result = .ok live ∧
      Foretells dry live ∧
      (operate g { o with dryRun := true } backup issues files).files = files ∧
      Carries g { o with dryRun := false } issues
        (preflight { o with dryRun := false } backup files).files
        (operate g { o with dryRun := false } backup issues files).files live.outcomes ∧
      (g.Sound → g.Spells → ∀ q,
        (operate g { o with dryRun := false } backup issues files).files.read q ≠
          (preflight { o with dryRun := false } backup files).files.read q ↔
        ∃ x ∈ live.outcomes, x.isCommitted = true ∧ Path.ofString x.file = q) := by
  obtain ⟨taken, htaken, hunwritable, hread⟩ := preflight_live hbackup
  have hdryFiles : (preflight { o with dryRun := true } backup files).files = files :=
    congrArg Run.files (preflight_dry o backup files)
  obtain ⟨dry, hdry, hdryStatistics, hdryDecided⟩ := operate_asDecided (g := g) hnormal
    (congrArg Run.result (preflight_dry o backup files)) (by rwa [hdryFiles])
  obtain ⟨live, hlive, hliveStatistics, hliveDecided⟩ := operate_asDecided (g := g) hnormal htaken
    (by rwa [hunwritable])
  have hcarries := hliveDecided.carries hnormal rfl
  refine ⟨dry, live, hdry, hlive, foretells_of_outcomes hdryStatistics hliveStatistics ?_, ?_,
    hcarries, hcarries.read_ne_iff⟩
  · have hdryOutcomes : dry.outcomes = _ := hdryDecided.result_eq
    have hliveOutcomes : live.outcomes = _ := hliveDecided.result_eq
    rw [hdryOutcomes, hliveOutcomes, List.map_map]
    refine List.map_congr_left fun group hgroup => ?_
    obtain ⟨i, hi, -, hfile⟩ := Logged.exists_issue_of_mem_groups hgroup
    have hsame := hread i hi
    rw [hfile] at hsame
    have hdecided : decision g { o with dryRun := false } _ group = decision g o files group :=
      (decision_dryRun false).trans (decision_of_read hsame)
    rw [Function.comp_apply, hdryFiles, decision_dryRun, hdecided, reported_dry]
  · rw [(operate_of_preflight issues (congrArg Run.result (preflight_dry o backup files))).2,
      files_transactions_of_dry rfl, hdryFiles]

end Operation

namespace Rehearsal

open Mutation.Sample

def backup (files : Memory) : Except BackupFailure BackupInfo × Memory :=
  (.ok ⟨"backup", 0, "now", []⟩, files)

theorem groups : orderedGroups issues = [("main.js", issues)] := by
  have hgroups : Target.byFile issues = [("main.js", issues)] := by decide +kernel
  rw [orderedGroups, hgroups, List.mergeSort_singleton]

theorem outcomes : (transactions grammar options (orderedGroups issues) files).result =
    [.committed "main.js" 2 2 ["a", "f"] false] := by
  have hpath : Path.ofString "main.js" = path := by decide +kernel
  rw [groups, (transactions_singleton _ _).1, transaction_eq_conclude, hpath, conclude, result_eq]

theorem spells : grammar.Spells := by
  intro language text parsed _ hparse
  rw [Grammar.parse_eq_ok] at hparse
  obtain ⟨rfl, -⟩ := hparse
  unfold grammar
  split
  · next h => exact h ▸ by decide +kernel
  · intro n hn
    cases hn

end Rehearsal

/-- The dry run foretells that an import and a function go. -/
theorem dry_run_predicts_live_run_sample :
    Normal Mutation.Sample.issues ∧
    ∃ dry live, (operate Mutation.Sample.grammar { Mutation.Sample.options with dryRun := true }
        Rehearsal.backup Mutation.Sample.issues Mutation.Sample.files).result = .ok dry ∧
      (operate Mutation.Sample.grammar { Mutation.Sample.options with dryRun := false }
        Rehearsal.backup Mutation.Sample.issues Mutation.Sample.files).result = .ok live ∧
      Foretells dry live ∧ live.outcomes = [.committed "main.js" 2 2 ["a", "f"] false] ∧
      (operate Mutation.Sample.grammar { Mutation.Sample.options with dryRun := false }
        Rehearsal.backup Mutation.Sample.issues Mutation.Sample.files).files.read
          Mutation.Sample.path ≠ Mutation.Sample.files.read Mutation.Sample.path := by
  have hnormal : Normal Mutation.Sample.issues := by
    unfold Normal
    decide +kernel
  have hwrite : ∀ i ∈ Mutation.Sample.issues,
      Path.ofString i.file ∉ Mutation.Sample.files.unwritable := by decide +kernel
  have hbackup : Spares Rehearsal.backup Mutation.Sample.issues Mutation.Sample.files :=
    ⟨_, _, rfl, rfl, fun _ _ => rfl⟩
  obtain ⟨dry, live, hdry, hlive, hforetells, -, -, hchanged⟩ := dry_run_predicts_live_run
    Mutation.Sample.grammar Mutation.Sample.options hnormal hwrite fun _ => hbackup
  have htaken : (preflight Mutation.Sample.options Rehearsal.backup Mutation.Sample.files).result =
      .ok (BackupInfo.toJson ⟨"backup", 0, "now", []⟩) := rfl
  have hreport :=
    (operate_of_preflight (g := Mutation.Sample.grammar) Mutation.Sample.issues htaken).1
  have hfiles : (preflight Mutation.Sample.options Rehearsal.backup Mutation.Sample.files).files =
      Mutation.Sample.files := rfl
  rw [hfiles, Rehearsal.outcomes] at hreport
  have houtcomes : live.outcomes = [.committed "main.js" 2 2 ["a", "f"] false] := by
    rw [Except.ok.inj (hlive.symm.trans hreport)]
    exact List.mergeSort_singleton _
  have hpath : Path.ofString "main.js" = Mutation.Sample.path := by decide +kernel
  refine ⟨hnormal, dry, live, hdry, hlive, hforetells, houtcomes, ?_⟩
  rw [← hfiles]
  refine (hchanged Mutation.Sample.sound Rehearsal.spells _).2 ?_
  rw [houtcomes]
  exact ⟨_, List.mem_singleton_self _, rfl, hpath⟩

end Surgery

end Deadwood
