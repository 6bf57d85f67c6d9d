import Deadwood.Proofs.Files.Logged
import Deadwood.Proofs.Files.Memory
import Deadwood.Proofs.Surgery.Transaction
import Deadwood.Surgery.Run
import Mathlib.Data.List.Nodup

/-!
Transactions one after another. A transaction reads its file, and all it does then is to write to
the same path at most once.
-/
namespace Deadwood

/-- What was written is there to be read, and a write is seen at its own path alone. -/
structure Store.Lawful (σ : Type) [Store σ] : Prop where
  read_write_of_ne : ∀ (files : σ) (p q : Path) (content : Bytes), q ≠ p →
    Store.read (Store.write files p content).2 q = Store.read files q
  read_write_self : ∀ (files : σ) (p : Path) (content old : Bytes), Store.read files p = .ok old →
    (Store.write files p content).1 = .ok () →
    Store.read (Store.write files p content).2 p = .ok content

theorem Memory.lawful : Store.Lawful Memory where
  read_write_of_ne _ _ _ content hq := Memory.read_write_of_ne hq content
  read_write_self _ _ _ _ hread hwrite := Memory.read_write_self hread hwrite

namespace Surgery

variable {σ : Type} [Store σ] {g : Grammar} {o : SurgeryOptions}

/-! ## The two halves of a transaction -/

section Resume

variable {file : String} {issues : List Issue} {content : Except FileError Bytes} {files : σ}

/-- A mutation from where its file has been read. -/
def mutate (g : Grammar) (o : SurgeryOptions) (path : Path) (issues : List Issue)
    (content : Except FileError Bytes) (files : σ) : Run σ (Except Crash Outcome) :=
  match Mutation.verdict g o path issues content with
  | .error fault => ⟨.error (.rebuild fault), files, []⟩
  | .ok v => Mutation.finish o path files v

def conclude (file : String) (r : Run σ (Except Crash Outcome)) : Run σ Outcome :=
  match r.result with
  | .ok outcome => ⟨outcome, r.files, r.notes⟩
  | .error c => ⟨crashed file c, r.files, r.notes ++ [crashNote file c]⟩

/-- A transaction from where its file has been read. -/
def resume (g : Grammar) (o : SurgeryOptions) (file : String) (issues : List Issue)
    (content : Except FileError Bytes) (files : σ) : Run σ Outcome :=
  conclude file (mutate g o (.ofString file) issues content files)

theorem run_eq_mutate (path : Path) (issues : List Issue) (files : σ) :
    Mutation.run g o path issues files = mutate g o path issues (Store.read files path) files := by
  unfold Mutation.run mutate
  cases Mutation.verdict g o path issues (Store.read files path) with
  | error fault => rfl
  | ok v => rfl

theorem transaction_eq_conclude (file : String) (issues : List Issue) (files : σ) :
    transaction g o file issues files =
      conclude file (Mutation.run g o (.ofString file) issues files) := by
  unfold transaction conclude
  cases h : (Mutation.run g o (.ofString file) issues files).result with
  | error c => simp only [h]
  | ok outcome => simp only [h]

theorem transaction_eq_resume (file : String) (issues : List Issue) (files : σ) :
    transaction g o file issues files =
      resume g o file issues (Store.read files (.ofString file)) files := by
  rw [transaction_eq_conclude, run_eq_mutate, resume]

omit [Store σ] in
theorem files_conclude (file : String) (r : Run σ (Except Crash Outcome)) :
    (conclude file r).files = r.files := by
  unfold conclude
  cases r.result with
  | error c => rfl
  | ok outcome => rfl

theorem files_finish (o : SurgeryOptions) (path : Path) (files : σ) (v : Verdict) :
    (Mutation.finish o path files v).files = files ∨
      ∃ text, (Mutation.finish o path files v).files = (Store.write files path text).2 := by
  unfold Mutation.finish
  cases Mutation.written? o v with
  | none => exact .inl rfl
  | some text =>
    refine .inr ⟨text, ?_⟩
    dsimp only
    cases Store.write files path text with
    | mk written files' =>
      cases written with
      | error e => rfl
      | ok u => rfl

/-- The rest of a transaction writes at most once, and to its own path. -/
theorem files_resume (g : Grammar) (o : SurgeryOptions) (file : String) (issues : List Issue)
    (content : Except FileError Bytes) (files : σ) :
    (resume g o file issues content files).files = files ∨
      ∃ text, (resume g o file issues content files).files =
        (Store.write files (.ofString file) text).2 := by
  unfold resume
  simp only [files_conclude]
  unfold mutate
  cases Mutation.verdict g o (.ofString file) issues content with
  | error fault => exact .inl rfl
  | ok v => exact files_finish o _ files v

theorem read_resume (hlaw : Store.Lawful σ) {q : Path} (hq : q ≠ .ofString file) :
    Store.read (resume g o file issues content files).files q = Store.read files q := by
  rcases files_resume g o file issues content files with h | ⟨text, h⟩
  · rw [h]
  · rw [h, hlaw.read_write_of_ne _ _ _ _ hq]

omit [Store σ] in
theorem result_conclude_of_committed {r : Run σ (Except Crash Outcome)} {f : String} {lines : Int}
    {nodes : Nat} {names : List String} {dryRun : Bool}
    (h : (conclude file r).result = .committed f lines nodes names dryRun) :
    r.result = .ok (.committed f lines nodes names dryRun) := by
  unfold conclude at h
  cases hresult : r.result with
  | error c => simp [hresult, crashed] at h
  | ok outcome =>
    rw [hresult] at h
    exact congrArg _ h

section Commit

variable {text : Bytes} {lines : Int} {nodes : Nat} {names : List String}

theorem finish_of_commit {path : Path} (hlive : o.dryRun = false)
    (hwrite : (Store.write files path text).1 = .ok ()) :
    Mutation.finish o path files (.commit text lines nodes names) =
      ⟨.ok (.committed path.toString lines nodes names false), (Store.write files path text).2,
        (Mutation.note? o path.toString (.commit text lines nodes names)).toList⟩ := by
  unfold Mutation.finish
  simp only [Mutation.written?, Mutation.outcome, hlive, Bool.false_eq_true, if_false]
  cases hstore : Store.write files path text with
  | mk written files' =>
    rw [hstore] at hwrite
    rw [show written = .ok () from hwrite]

/-- A mutation that ends in a live commit has written. -/
theorem commit_of_finish {path : Path} {v : Verdict} {f : String}
    (h : (Mutation.finish o path files v).result = .ok (.committed f lines nodes names false)) :
    ∃ text, v = .commit text lines nodes names ∧ (Store.write files path text).1 = .ok () ∧
      (Mutation.finish o path files v).files = (Store.write files path text).2 := by
  cases v with
  | skip | leave | reject => cases h
  | commit text lines' nodes' names' =>
    cases hdry : o.dryRun with
    | true => simp [Mutation.finish, Mutation.written?, Mutation.outcome, hdry] at h
    | false =>
      cases hwrite : (Store.write files path text).1 with
      | error e =>
        unfold Mutation.finish at h
        simp only [Mutation.written?, hdry, Bool.false_eq_true, if_false] at h
        cases hstore : Store.write files path text with
        | mk written files' =>
          rw [hstore] at hwrite
          simp [hstore, show written = .error e from hwrite] at h
      | ok u =>
        rw [finish_of_commit hdry hwrite] at h ⊢
        obtain ⟨-, rfl, rfl, rfl, -⟩ := Outcome.committed.inj (Except.ok.inj h)
        exact ⟨text, rfl, hwrite, rfl⟩

theorem resume_of_commit {path : Path} (hpath : Path.ofString file = path)
    (hv : Mutation.verdict g o path issues content = .ok (.commit text lines nodes names))
    (hlive : o.dryRun = false) (hwrite : (Store.write files path text).1 = .ok ()) :
    (resume g o file issues content files).result =
        .committed path.toString lines nodes names false ∧
      (resume g o file issues content files).files = (Store.write files path text).2 := by
  subst hpath
  have hmutate : mutate g o (.ofString file) issues content files =
      Mutation.finish o (.ofString file) files (.commit text lines nodes names) := by
    unfold mutate
    rw [hv]
  unfold resume
  rw [hmutate, finish_of_commit hlive hwrite]
  exact ⟨rfl, rfl⟩

theorem commit_of_resume {f : String}
    (h : (resume g o file issues content files).result = .committed f lines nodes names false) :
    ∃ text, Mutation.verdict g o (.ofString file) issues content =
        .ok (.commit text lines nodes names) ∧
      (Store.write files (.ofString file) text).1 = .ok () ∧
      (resume g o file issues content files).files =
        (Store.write files (.ofString file) text).2 := by
  unfold resume at h ⊢
  have hresult := result_conclude_of_committed h
  rw [files_conclude]
  unfold mutate at hresult ⊢
  cases hv : Mutation.verdict g o (.ofString file) issues content with
  | error fault => simp [hv] at hresult
  | ok v =>
    rw [hv] at hresult
    obtain ⟨text, rfl, hwrite, hfiles⟩ := commit_of_finish hresult
    exact ⟨text, rfl, hwrite, hfiles⟩

end Commit

end Resume

theorem transactions_singleton (job : String × List Issue) (files : σ) :
    (transactions g o [job] files).result = [(transaction g o job.1 job.2 files).result] ∧
      (transactions g o [job] files).files = (transaction g o job.1 job.2 files).files := by
  simp only [transactions, and_self]

theorem transactions_append (before after : List (String × List Issue)) (files : σ) :
    (transactions g o (before ++ after) files).result =
        (transactions g o before files).result ++
          (transactions g o after (transactions g o before files).files).result ∧
      (transactions g o (before ++ after) files).files =
        (transactions g o after (transactions g o before files).files).files := by
  induction before generalizing files with
  | nil => exact ⟨rfl, rfl⟩
  | cons job rest ih =>
    obtain ⟨hresult, hfiles⟩ := ih (transaction g o job.1 job.2 files).files
    simp only [List.cons_append, transactions, hresult, hfiles, and_self]

theorem transaction_of_commit {file : String} {path : Path} {issues : List Issue} {files : σ}
    {text : Bytes} {lines : Int} {nodes : Nat} {names : List String}
    (hpath : Path.ofString file = path)
    (hv : Mutation.verdict g o path issues (Store.read files path) =
      .ok (.commit text lines nodes names))
    (hlive : o.dryRun = false) (hwrite : (Store.write files path text).1 = .ok ()) :
    (transaction g o file issues files).result =
        .committed path.toString lines nodes names false ∧
      (transaction g o file issues files).files = (Store.write files path text).2 := by
  subst hpath
  rw [transaction_eq_resume]
  exact resume_of_commit rfl hv hlive hwrite

/-- A dry run writes nothing, whatever the store. -/
theorem files_transactions_of_dry (hdry : o.dryRun = true) (groups : List (String × List Issue))
    (files : σ) : (transactions g o groups files).files = files := by
  have hfinish : ∀ (path : Path) (v : Verdict), (Mutation.finish o path files v).files = files := by
    intro path v
    have hnone : Mutation.written? o v = none := by cases v <;> simp [Mutation.written?, hdry]
    unfold Mutation.finish
    rw [hnone]
  induction groups with
  | nil => rfl
  | cons group rest ih =>
    have hone : (transaction g o group.1 group.2 files).files = files := by
      rw [transaction_eq_resume]
      unfold resume
      rw [files_conclude]
      unfold mutate
      cases Mutation.verdict g o (.ofString group.1) group.2
        (Store.read files (.ofString group.1)) with
      | error fault => rfl
      | ok v => exact hfinish _ v
    simp only [transactions, hone, ih]

/-! ## The transactions of an operation -/

theorem operate_of_preflight {backup : σ → Except BackupFailure BackupInfo × σ} {files : σ}
    (issues : List Issue) {taken : Json}
    (h : (preflight o backup files).result = .ok taken) :
    (operate g o backup issues files).result = .ok (.ofOutcomes o
        (transactions g o (orderedGroups issues) (preflight o backup files).files).result taken
        (warnings o)) ∧
      (operate g o backup issues files).files =
        (transactions g o (orderedGroups issues) (preflight o backup files).files).files := by
  unfold operate
  simp only [h, and_self]

theorem nodup_groups (issues : List Issue) : ((orderedGroups issues).map (·.1)).Nodup :=
  ((List.mergeSort_perm _ _).map _).nodup_iff.2 (Keyed.nodup_keys_group Issue.file _)

/-- A file goes by one name in the issues. -/
def OneName (issues : List Issue) : Prop :=
  ∀ i ∈ issues, ∀ j ∈ issues, Path.ofString i.file = .ofString j.file → i.file = j.file

theorem nodup_paths {issues : List Issue} (h : OneName issues) :
    ((orderedGroups issues).map fun group => Path.ofString group.1).Nodup := by
  have hone : ∀ a ∈ (orderedGroups issues).map (·.1), ∀ b ∈ (orderedGroups issues).map (·.1),
      Path.ofString a = .ofString b → a = b := by
    simp only [List.forall_mem_map]
    intro x hx y hy hpath
    obtain ⟨i, hi, -, hfile⟩ := Logged.exists_issue_of_mem_groups hx
    obtain ⟨j, hj, -, hfile'⟩ := Logged.exists_issue_of_mem_groups hy
    rw [← hfile, ← hfile'] at hpath ⊢
    exact h i hi j hj hpath
  have hpaths : (((orderedGroups issues).map (·.1)).map Path.ofString).Nodup :=
    List.Nodup.map_on hone (nodup_groups issues)
  rwa [List.map_map] at hpaths

end Surgery

end Deadwood
