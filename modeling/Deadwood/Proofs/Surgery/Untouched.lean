import Deadwood.Machine
import Deadwood.Proofs.Disk.Replacing
import Deadwood.Proofs.Surgery.Sequence

/-!
What surgery does not touch. A transaction that writes has read its file, and then alters that file
and the name beside it; a directory with a name that starts with no dot and that holds no file of
an issue stays as it is (`alters_operate`).
-/
namespace Deadwood.Surgery

/-! ## One transaction -/

section Transaction

variable {σ : Type} [Store σ]

theorem verdict_of_unread (g : Grammar) (o : SurgeryOptions) (path : Path) (issues : List Issue)
    (e : FileError) : ∃ problem, Mutation.verdict g o path issues (.error e) = .ok (.skip problem) := by
  unfold Mutation.verdict Mutation.load
  cases Language.ofPath? path with
  | none => exact ⟨_, rfl⟩
  | some language => exact ⟨_, rfl⟩

/-- What is written has been read. -/
theorem files_transaction (g : Grammar) (o : SurgeryOptions) (file : String) (issues : List Issue)
    (files : σ) : (transaction g o file issues files).files = files ∨
      ∃ content text, Store.read files (.ofString file) = .ok content ∧
        (transaction g o file issues files).files =
          (Store.write files (.ofString file) text).2 := by
  rw [transaction_eq_resume]
  cases hread : Store.read files (.ofString file) with
  | error e =>
    obtain ⟨problem, hverdict⟩ := verdict_of_unread g o (.ofString file) issues e
    refine .inl ?_
    unfold resume
    rw [files_conclude]
    unfold mutate
    rw [hverdict]
    rfl
  | ok content =>
    refine (files_resume g o file issues (.ok content) files).imp_right ?_
    exact fun ⟨text, hfiles⟩ => ⟨content, text, rfl, hfiles⟩

end Transaction

/-! ## A directory apart -/

section Apart

variable {d : Disk} {p : Path} {above : List String} {name : String}

theorem resolve_parent_isPrefix (here p : Path) (hup : p.parts ≠ [] → p.name ≠ "..") :
    (Path.resolve here p.parent).parts <+: (Path.resolve here p).parts := by
  by_cases hparts : p.parts = []
  · rw [Path.parent_of_parts_eq_nil hparts]
  · rw [Path.parts_resolve_eq_concat here hparts (hup hparts)]
    exact List.prefix_append _ _

/-- The name beside a file lies in a directory only if the file does, or if it is the name of the
directory. -/
theorem not_isPrefix_of_beside (hroot : d.standing [] = .directory) {content : Bytes}
    (hread : d.read p = .ok content) (hname : name.toList.head? ≠ some '.')
    (hp : ¬ above ++ [name] <+: (Path.resolve d.here p).parts) {names : List String}
    (hnames : Disk.Beside d.here p names) : ¬ above ++ [name] <+: names := by
  rcases hnames with rfl | rfl
  · exact hp
  · obtain ⟨beside, htemporary, hhead, hbeside, -⟩ := Disk.temporary_eq p
    obtain ⟨names, hsettle, hfile⟩ := Disk.read_eq_ok.1 hread
    have hup : p.parts ≠ [] → p.name ≠ ".." :=
      Disk.name_ne_up_of_settle hroot hsettle (Disk.ne_directory_of_file hfile)
    -- It is no name of the directory for its dot, and it lies no deeper than the file.
    rw [htemporary, Path.parts_resolve_child _ _ hbeside, List.prefix_concat_iff]
    rintro (heq | hinside)
    · obtain rfl : name = beside := List.head_eq_of_cons_eq (List.append_inj' heq rfl).2
      exact hname hhead
    · exact hp (hinside.trans (resolve_parent_isPrefix d.here p hup))

end Apart

/-! ## A run -/

section Run

variable {g : Grammar} {o : SurgeryOptions} {m : Machine} {above : List String} {name : String}
  (hroot : m.disk.standing [] = .directory) (hname : name.toList.head? ≠ some '.')

include hroot hname

omit hroot hname in
theorem disk_write (p : Path) (content : Bytes) :
    (Store.write m p content).2.disk = (m.disk.replace p content).2 := rfl

theorem alters_transaction {file : String}
    (hfile : ¬ above ++ [name] <+: (Path.resolve m.disk.here (.ofString file)).parts)
    (issues : List Issue) :
    m.disk.Alters (transaction g o file issues m).files.disk (fun n => ¬ above ++ [name] <+: n)
      fun _ => False := by
  rcases files_transaction g o file issues m with h | ⟨content, text, hread, h⟩
  · rw [h]
    exact .refl ..
  · have halters : m.disk.Alters (m.disk.replace (.ofString file) text).2
        (Disk.Beside m.disk.here (.ofString file)) fun _ => False :=
      Disk.alters_replaceInterrupted hroot ..
    rw [h, disk_write]
    exact halters.mono (fun _ => not_isPrefix_of_beside hroot hread hname hfile) fun _ => id

theorem alters_transactions {groups : List (String × List Issue)} (hgroups : ∀ group ∈ groups,
      ¬ above ++ [name] <+: (Path.resolve m.disk.here (.ofString group.1)).parts) :
    m.disk.Alters (transactions g o groups m).files.disk (fun n => ¬ above ++ [name] <+: n)
      fun _ => False := by
  induction groups generalizing m with
  | nil => exact .refl ..
  | cons group rest ih =>
    rw [List.forall_mem_cons] at hgroups
    have hfirst := alters_transaction (g := g) (o := o) hroot hname hgroups.1 group.2
    have hrest := ih (hfirst.directory _ hroot) (by rw [hfirst.here]; exact hgroups.2)
    exact hfirst.trans hrest

/-- Once its backup is made, an operation stays out of a directory that holds no file of an issue. -/
theorem alters_operate {backup : Machine → Except BackupFailure BackupInfo × Machine}
    {info : BackupInfo} {issues : List Issue} {before : Machine} (hneeds : needsBackup o = true)
    (hbackup : backup before = (.ok info, m)) (hissues : ∀ i ∈ issues,
      i.unusedSymbol?.isSome = true →
        ¬ above ++ [name] <+: (Path.resolve m.disk.here (.ofString i.file)).parts) :
    m.disk.Alters (operate g o backup issues before).files.disk (fun n => ¬ above ++ [name] <+: n)
      fun _ => False := by
  have htaken : preflight o backup before = ⟨.ok info.toJson, m, backupNotes o info⟩ := by
    rw [preflight, if_pos hneeds, hbackup]
  rw [(operate_of_preflight issues (congrArg Run.result htaken)).2, htaken]
  refine alters_transactions hroot hname fun group hgroup => ?_
  obtain ⟨i, hi, hunused, hfile⟩ := Logged.exists_issue_of_mem_groups hgroup
  exact hfile ▸ hissues i hi hunused

end Run

end Deadwood.Surgery
