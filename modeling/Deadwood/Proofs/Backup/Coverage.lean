import Deadwood.Backup.Create
import Deadwood.Proofs.Analysis.Unused
import Deadwood.Proofs.Disk.Finding
import Deadwood.Proofs.Files.Logged

/-!
What a backup covers. It looks for fewer kinds of files than an analysis: of the files that surgery
writes after an analysis of the same root, it holds all but those whose names end in `.mts` or
`.cts` (`written_is_saved`, `module_is_not_saved`).
-/
namespace Deadwood

/-! ## What a backup records -/

namespace Backup

/-- The name under which a backup records a source. -/
def recordName (root source : Path) : String := "/".intercalate (below root source)

theorem path_of_save {root backup source : Path} {d d' : Disk} {f : SavedFile}
    (h : save root backup source d = (.ok f, d')) : f.path = recordName root source := by
  obtain ⟨-, _, -, h⟩ := Disk.Action.bind_eq_ok h
  obtain ⟨-, _, -, h⟩ := Disk.Action.bind_eq_ok h
  obtain ⟨content, _, -, h⟩ := Disk.Action.bind_eq_ok h
  cases h
  rfl

theorem paths_of_fill {here root backup : Path} {timestamp : String} {sources : List Path}
    {d d' : Disk} {files : List SavedFile}
    (h : fill here timestamp root backup sources d = (.ok files, d')) :
    files.map (·.path) = sources.map (recordName root) := by
  obtain ⟨-, _, -, h⟩ := Disk.Action.bind_eq_ok h
  obtain ⟨saved, _, hsaved, h⟩ := Disk.Action.bind_eq_ok h
  obtain ⟨-, _, -, h⟩ := Disk.Action.bind_eq_ok h
  obtain ⟨-, _, -, h⟩ := Disk.Action.bind_eq_ok h
  obtain rfl : saved = files := by
    cases h
    rfl
  have hrecorded : ∀ source d f d', save root backup source d = (.ok f, d') →
      f.path = recordName root source := fun source d f d' => path_of_save
  exact Disk.Action.map_of_each hrecorded hsaved

/-- A backup that is made is a new directory filled with what was found. -/
theorem fill_of_create {dir root : Path} {m : Machine} {info : BackupInfo}
    (h : (create dir root m).1 = .ok info) :
    ∃ files, fill m.disk.here m.now.text (Path.resolve m.disk.here root)
        (place m dir (Path.resolve m.disk.here root))
        (m.find (Path.resolve m.disk.here root) (discovery dir)) m.disk =
          (.ok files, (create dir root m).2.disk) ∧
      info = Backup.info m (place m dir (Path.resolve m.disk.here root)) files := by
  unfold create Machine.work at h ⊢
  dsimp only at h ⊢
  split at h
  · next files hfill =>
    cases h
    exact ⟨files, Prod.ext hfill rfl, rfl⟩
  · cases h

theorem create_of_fill {dir root : Path} {m : Machine} {files : List SavedFile} {d : Disk}
    (h : fill m.disk.here m.now.text (Path.resolve m.disk.here root)
      (place m dir (Path.resolve m.disk.here root))
      (m.find (Path.resolve m.disk.here root) (discovery dir)) m.disk = (.ok files, d)) :
    (create dir root m).1 =
        .ok (Backup.info m (place m dir (Path.resolve m.disk.here root)) files) ∧
      (create dir root m).2.disk = d := by
  unfold create Machine.work
  dsimp only
  rw [h]
  exact ⟨rfl, rfl⟩

/-- A backup records every source that it found, in order. -/
theorem files_of_create {dir root : Path} {m : Machine} {info : BackupInfo}
    (h : (create dir root m).1 = .ok info) :
    info.files = (m.find (Path.resolve m.disk.here root) (discovery dir)).map
      (recordName (Path.resolve m.disk.here root)) := by
  obtain ⟨files, hfill, rfl⟩ := fill_of_create h
  exact paths_of_fill hfill

end Backup

/-! ## What an analysis names -/

namespace Analysis

variable {σ : Type} [Store σ]

theorem path_of_parseFile {g : Grammar} {path : Path} {source : Bytes} {f : SourceFile}
    (h : g.parseFile path source = .ok f) : f.path = path := by
  unfold Grammar.parseFile at h
  cases hlanguage : Language.ofPath? path with
  | none => simp [hlanguage] at h
  | some language =>
    cases hdecode : Utf8.decode source with
    | error e => simp [hlanguage, hdecode, bind, Except.bind, Except.mapError] at h
    | ok text =>
      cases hparse : g.parse language source with
      | error e => simp [hlanguage, hdecode, hparse, bind, Except.bind, Except.mapError] at h
      | ok tree =>
        simp only [hlanguage, hdecode, hparse, bind, Except.bind, Except.mapError, pure,
          Except.pure, Except.ok.injEq] at h
        exact h ▸ rfl

theorem path_of_load {g : Grammar} {files : σ} {path : Path} {f : SourceFile}
    (h : load g files path = .ok f) : f.path = path := by
  unfold load at h
  dsimp only at h
  split at h
  · cases h
  · next source hread =>
    cases hparse : g.parseFile path source with
    | error e => simp [hparse, Except.mapError] at h
    | ok f' =>
      simp only [hparse, Except.mapError, Except.ok.injEq] at h
      exact h ▸ path_of_parseFile hparse

theorem exists_path_of_unused {g : Grammar} {files : σ} {root : Path} {options : AnalysisOptions}
    {d : Discovery} {verbose : Bool} {i : Issue}
    (hi : i ∈ (indexProject g files root options d verbose).index.issues)
    (hunused : i.unusedSymbol?.isSome = true) :
    ∃ q ∈ Store.find files root d, i.file = q.toString := by
  obtain ⟨f, hf, hfile⟩ := Index.exists_file_of_unused hi hunused
  obtain ⟨loaded, hloaded, hf⟩ := List.mem_filterMap.1 hf
  obtain ⟨q, hq, rfl⟩ := List.mem_map.1 hloaded
  cases hload : load g files q with
  | error e => simp [hload, Except.toOption] at hf
  | ok f' =>
    simp only [hload, Except.toOption, Option.some.injEq] at hf
    rw [hf] at hload
    exact ⟨q, hq, by rw [hfile, SourceFile.name, path_of_load hload]⟩

end Analysis

namespace Backup

/-- Files that an analysis looks for and a backup does not. -/
def overlooks (name : String) : Bool :=
  Discovery.matchesPattern name "**/*.mts" || Discovery.matchesPattern name "**/*.cts"

/-- A name that an analysis looks for is one that a backup looks for or overlooks. -/
theorem any_patterns_or {name : String}
    (h : ({} : Discovery).patterns.any (Discovery.matchesPattern name) = true) :
    patterns.any (Discovery.matchesPattern name) = true ∨ overlooks name = true := by
  rw [List.any_eq_true] at h
  obtain ⟨pattern, hmem, hmatches⟩ := h
  have hsplit : ∀ pattern ∈ ({} : Discovery).patterns,
      pattern ∈ patterns ∨ pattern = "**/*.mts" ∨ pattern = "**/*.cts" := by decide
  rcases hsplit pattern hmem with hmem | rfl | rfl
  · exact .inl (List.any_eq_true.2 ⟨pattern, hmem, hmatches⟩)
  · exact .inr (by simp [overlooks, hmatches])
  · exact .inr (by simp [overlooks, hmatches])

variable {dir root q : Path} {d : Discovery} {m : Machine} {info : BackupInfo}

/-- Of the files that an analysis finds, a backup records all but those that it overlooks. -/
theorem recordName_mem_or (hpatterns : d.patterns = ({} : Discovery).patterns)
    (hignored : (discovery dir).ignored ⊆ d.ignored) (hq : q ∈ m.find root d)
    (hinfo : (create dir root m).1 = .ok info) :
    recordName (Path.resolve m.disk.here root) q ∈ info.files ∨
      overlooks (recordName (Path.resolve m.disk.here root) q) = true := by
  obtain ⟨mode, entries, parts, hroot, hparts, rfl⟩ := Disk.mem_find.1 hq
  have haccepted : d.patterns.any (Discovery.matchesPattern (Discovery.below parts)) = true := by
    have haccepts := (List.mem_filter.1 hparts).2
    rw [Discovery.accepts, Bool.and_eq_true] at haccepts
    exact haccepts.2
  rw [hpatterns] at haccepted
  have hname : Discovery.below parts = "/".intercalate parts := by
    cases parts with
    | nil => exact absurd haccepted (by decide +kernel)
    | cons part parts => rfl
  have hrecord : recordName (Path.resolve m.disk.here root)
      { Path.resolve m.disk.here root with
        parts := (Path.resolve m.disk.here root).parts ++ parts } = Discovery.below parts := by
    rw [recordName, below, Path.relativeTo?_join, hname]
    rfl
  rcases any_patterns_or haccepted with hpattern | hoverlooked
  · rw [files_of_create hinfo]
    refine .inl (List.mem_map_of_mem (Disk.mem_find.2 ⟨mode, entries, parts, ?_, ?_, ?_⟩))
    · rw [Path.resolve_resolve]
      exact hroot
    · exact Discovery.mem_foundBelow_of_ignored hparts hignored hpattern
    · rw [Path.resolve_resolve]
  · exact .inr (hrecord ▸ hoverlooked)

end Backup

namespace Surgery

/-- What surgery writes after an analysis of the same root are files that the backup made before
records, or ones that a backup overlooks. -/
theorem written_is_saved (g : Grammar) (o : SurgeryOptions) (options : AnalysisOptions)
    (d : Discovery) (dir root : Path) (verbose : Bool) (m : Machine)
    (hpatterns : d.patterns = ({} : Discovery).patterns)
    (hignored : (Backup.discovery dir).ignored ⊆ d.ignored) (hneeds : needsBackup o = true) :
    ∀ p ∈ (operate g o (Logged.lift (Backup.create dir root))
        (Analysis.indexProject g m root options d verbose).index.issues ⟨m, []⟩).files.writes,
      ∃ info q, (Backup.create dir root m).1 = .ok info ∧ q ∈ m.find root d ∧
        p = .ofString q.toString ∧
        (Backup.recordName (Path.resolve m.disk.here root) q ∈ info.files ∨
          Backup.overlooks (Backup.recordName (Path.resolve m.disk.here root) q) = true) := by
  intro p hp
  rcases Logged.exists_issue_of_mem_writes hneeds hp with hp | ⟨⟨info, hinfo⟩, i, hi, hunused, rfl⟩
  · cases hp
  · obtain ⟨q, hq, hfile⟩ := Analysis.exists_path_of_unused hi hunused
    exact ⟨info, q, hinfo, hq, by rw [hfile],
      Backup.recordName_mem_or hpatterns hignored hq hinfo⟩

namespace Sample

/-- A project of one file, in which a function is defined and nothing refers to it. -/
def machine (name : String) : Machine where
  disk := { root := .directory 0o755 [("p", .directory 0o755
    [(name, .file 0o644 Index.Sample.defining.source)])] }
  now := ⟨2024, 1, 2, 3, 4, 5⟩

def grammar : Grammar := fun _ text =>
  if text = Index.Sample.defining.source then Index.Sample.defining.tree
  else Deadwood.Sample.bare

def options : SurgeryOptions := { conservative := false }

def root : Path := ⟨1, ["p"]⟩

def dir : Path := .ofString defaultBackupDir

def issues (name : String) : List Issue :=
  (Analysis.indexProject grammar (machine name) root {} {} false).index.issues

/-- The paths that are written, and the names that the backup records. -/
def writes (name : String) : List Path :=
  (operate grammar options (Logged.lift (Backup.create dir root)) (issues name)
    ⟨machine name, []⟩).files.writes

def saved (name : String) : Option (List String) :=
  (Backup.create dir root (machine name)).1.toOption.map (·.files)

theorem exists_info {name : String} {files : List String} (h : saved name = some files) :
    ∃ info, (Backup.create dir root (machine name)).1 = .ok info ∧ info.files = files := by
  unfold saved at h
  cases hcreate : (Backup.create dir root (machine name)).1 with
  | error e => simp [hcreate, Except.toOption] at h
  | ok info => exact ⟨info, rfl, by simpa [hcreate, Except.toOption] using h⟩

end Sample

/-- A script is written, and the backup records it. -/
theorem written_is_saved_sample :
    needsBackup Sample.options = true ∧ Sample.writes "a.js" = [⟨1, ["p", "a.js"]⟩] ∧
    ∃ info, (Backup.create Sample.dir Sample.root (Sample.machine "a.js")).1 = .ok info ∧
      "a.js" ∈ info.files := by
  have hwrites : Sample.writes "a.js" = [⟨1, ["p", "a.js"]⟩] := by decide +kernel
  refine ⟨rfl, hwrites, ?_⟩
  obtain ⟨info, q, hinfo, hq, -, hsaved⟩ := written_is_saved Sample.grammar Sample.options {} {}
    Sample.dir Sample.root false (Sample.machine "a.js") rfl (by decide +kernel) rfl _
    (List.mem_of_mem_head? (congrArg List.head? hwrites))
  have hfound : (Sample.machine "a.js").find Sample.root {} = [⟨1, ["p", "a.js"]⟩] := by
    decide +kernel
  rw [hfound, List.mem_singleton] at hq
  subst hq
  have hname : Backup.recordName (Path.resolve (Sample.machine "a.js").disk.here Sample.root)
      ⟨1, ["p", "a.js"]⟩ = "a.js" := by decide +kernel
  rw [hname] at hsaved
  exact ⟨info, hinfo, hsaved.resolve_right (by decide +kernel)⟩

/-- The file is analyzed and written, and the backup does not record it. -/
theorem module_is_not_saved :
    needsBackup Sample.options = true ∧
    Sample.writes "a.mts" = [⟨1, ["p", "a.mts"]⟩] ∧ Sample.saved "a.mts" = some [] := by
  decide +kernel

end Surgery

end Deadwood
