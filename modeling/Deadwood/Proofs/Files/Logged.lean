import Deadwood.Proofs.Keyed
import Deadwood.Surgery.Run

/-!
A store that notes which paths it is asked to write. Surgery does with it what it does with the
store below it (`operate_base`), and it notes no path but those of the files in the issues
(`exists_issue_of_mem_writes`).
-/
namespace Deadwood

structure Logged (σ : Type) where
  base : σ
  writes : List Path := []

namespace Logged

variable {σ α : Type}

/-- Work on the store below, which is not noted. -/
def lift (work : σ → α × σ) (l : Logged σ) : α × Logged σ :=
  ((work l.base).1, { l with base := (work l.base).2 })

/-- A run without the notes. -/
def forget (r : Run (Logged σ) α) : Run σ α := ⟨r.result, r.files.base, r.notes⟩

theorem forget_eq_iff {r : Run (Logged σ) α} {r' : Run σ α} : forget r = r' ↔
    r.result = r'.result ∧ r.files.base = r'.files ∧ r.notes = r'.notes := by
  cases r'
  simp [forget]

variable {g : Grammar} {o : SurgeryOptions} {l : Logged σ} {p : Path}
  {backup : σ → Except BackupFailure BackupInfo × σ}

/-- The backup leaves no notes, and it goes wrong only where it does without them. -/
theorem preflight_base : forget (Surgery.preflight o (lift backup) l) =
      Surgery.preflight o backup l.base ∧
    (Surgery.preflight o (lift backup) l).files.writes = l.writes := by
  unfold Surgery.preflight
  split
  · rw [lift]
    cases hbackup : backup l.base with
    | mk result files =>
      cases result with
      | error e => exact ⟨rfl, rfl⟩
      | ok info => exact ⟨rfl, rfl⟩
  · exact ⟨rfl, rfl⟩

theorem exists_info_of_preflight {json : Json} (hneeds : Surgery.needsBackup o = true)
    (h : (Surgery.preflight o backup l.base).result = .ok json) :
    ∃ info, (backup l.base).1 = .ok info := by
  rw [Surgery.preflight, if_pos hneeds] at h
  cases hbackup : backup l.base with
  | mk result files =>
    cases result with
    | error e => simp [hbackup] at h
    | ok info => exact ⟨info, rfl⟩

variable [Store σ]

def write (l : Logged σ) (p : Path) (content : Bytes) : Except FileError Unit × Logged σ :=
  ((Store.write l.base p content).1, ⟨(Store.write l.base p content).2, l.writes ++ [p]⟩)

instance : Store (Logged σ) := ⟨fun l => Store.read l.base, write, fun l => Store.find l.base⟩

/-- A run writes to one path at most, and otherwise does what it does without the notes. -/
theorem run_base (path : Path) (issues : List Issue) :
    forget (Mutation.run g o path issues l) = Mutation.run g o path issues l.base ∧
      ((Mutation.run g o path issues l).files.writes = l.writes ∨
        (Mutation.run g o path issues l).files.writes = l.writes ++ [path]) := by
  unfold Mutation.run
  rw [show Store.read l path = Store.read l.base path from rfl]
  cases Mutation.verdict g o path issues (Store.read l.base path) with
  | error fault => exact ⟨rfl, .inl rfl⟩
  | ok v =>
    dsimp only
    unfold Mutation.finish
    cases Mutation.written? o v with
    | none => exact ⟨rfl, .inl rfl⟩
    | some content =>
      have hwrite : Store.write l path content = write l path content := rfl
      simp only [hwrite, write]
      cases hbase : Store.write l.base path content with
      | mk written files =>
        cases written with
        | error e => exact ⟨rfl, .inr rfl⟩
        | ok u => exact ⟨rfl, .inr rfl⟩

theorem transaction_base (file : String) (issues : List Issue) :
    forget (Surgery.transaction g o file issues l) =
        Surgery.transaction g o file issues l.base ∧
      ((Surgery.transaction g o file issues l).files.writes = l.writes ∨
        (Surgery.transaction g o file issues l).files.writes = l.writes ++ [.ofString file]) := by
  obtain ⟨hforget, hwrites⟩ := run_base (g := g) (o := o) (l := l) (.ofString file) issues
  unfold Surgery.transaction
  rw [← hforget]
  cases hrun : Mutation.run g o (.ofString file) issues l with
  | mk result files notes =>
    rw [hrun] at hwrites
    cases result with
    | ok outcome => exact ⟨rfl, hwrites⟩
    | error c => exact ⟨rfl, hwrites⟩

theorem transactions_base (groups : List (String × List Issue)) :
    forget (Surgery.transactions g o groups l) = Surgery.transactions g o groups l.base ∧
      ∀ p ∈ (Surgery.transactions g o groups l).files.writes,
        p ∈ l.writes ∨ ∃ group ∈ groups, p = .ofString group.1 := by
  induction groups generalizing l with
  | nil => exact ⟨rfl, fun p hp => .inl hp⟩
  | cons group rest ih =>
    obtain ⟨file, issues⟩ := group
    obtain ⟨hforget, hwrites⟩ := transaction_base (g := g) (o := o) (l := l) file issues
    obtain ⟨hrest, hothers⟩ := ih (l := (Surgery.transaction g o file issues l).files)
    obtain ⟨hresult, hfiles, hnotes⟩ := forget_eq_iff.1 hforget
    constructor
    · simp only [Surgery.transactions, ← hfiles, ← hrest, ← hresult, ← hnotes]
      rfl
    · intro p hp
      rcases hothers p hp with hp | ⟨group, hgroup, hp⟩
      · rcases hwrites with hsame | hmore
        · exact .inl (hsame ▸ hp)
        · rw [hmore, List.mem_append, List.mem_singleton] at hp
          exact hp.imp_right fun hp => ⟨(file, issues), List.mem_cons_self, hp⟩
      · exact .inr ⟨group, List.mem_cons_of_mem _ hgroup, hp⟩

/-- A file that surgery comes to is that of an issue about an unused symbol. -/
theorem exists_issue_of_mem_groups {issues : List Issue} {group : String × List Issue}
    (h : group ∈ Surgery.orderedGroups issues) :
    ∃ i ∈ issues, i.unusedSymbol?.isSome = true ∧ i.file = group.1 := by
  rw [Surgery.orderedGroups, List.mem_mergeSort] at h
  have hkey : group.1 ∈ (Target.byFile issues).keys := List.mem_map_of_mem h
  obtain ⟨i, hi, hfile⟩ := Keyed.exists_of_mem_keys_group hkey
  obtain ⟨hi, hunused⟩ := List.mem_filter.1 hi
  exact ⟨i, hi, hunused, hfile⟩

variable {issues : List Issue}

/-- Noting what is written changes nothing else in an operation. -/
theorem operate_base : forget (Surgery.operate g o (lift backup) issues l) =
    Surgery.operate g o backup issues l.base := by
  have hbefore : forget (Surgery.preflight o (lift backup) l) = Surgery.preflight o backup l.base :=
    preflight_base.1
  obtain ⟨hresult, hfiles, hnotes⟩ := forget_eq_iff.1 hbefore
  unfold Surgery.operate
  dsimp only
  rw [← hresult, ← hfiles, ← hnotes]
  cases (Surgery.preflight o (lift backup) l).result with
  | error e => rfl
  | ok taken =>
    dsimp only
    rw [← (transactions_base _).1]
    rfl

/-- What an operation writes are files of issues, and it writes none before its backup is made. -/
theorem exists_issue_of_mem_writes (hneeds : Surgery.needsBackup o = true)
    (h : p ∈ (Surgery.operate g o (lift backup) issues l).files.writes) :
    p ∈ l.writes ∨ (∃ info, (backup l.base).1 = .ok info) ∧
      ∃ i ∈ issues, i.unusedSymbol?.isSome = true ∧ p = .ofString i.file := by
  have hbefore : forget (Surgery.preflight o (lift backup) l) = Surgery.preflight o backup l.base :=
    preflight_base.1
  have hwrites : (Surgery.preflight o (lift backup) l).files.writes = l.writes := preflight_base.2
  have hresult := (forget_eq_iff.1 hbefore).1
  unfold Surgery.operate at h
  dsimp only at h
  cases htaken : (Surgery.preflight o (lift backup) l).result with
  | error e =>
    rw [htaken] at h
    exact .inl (hwrites ▸ h)
  | ok taken =>
    rw [htaken] at h
    rcases (transactions_base _).2 p h with h | ⟨group, hgroup, rfl⟩
    · exact .inl (hwrites ▸ h)
    · obtain ⟨i, hi, hunused, hfile⟩ := exists_issue_of_mem_groups hgroup
      exact .inr ⟨exists_info_of_preflight hneeds (hresult.symm.trans htaken), i, hi, hunused,
        hfile ▸ rfl⟩

end Logged

end Deadwood
