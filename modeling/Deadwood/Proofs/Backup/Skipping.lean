import Deadwood.Proofs.Backup.Place

/-!
Earlier backups are no sources of later ones. A discovery that leaves out the directory in which
backups are kept, and which is not the root itself, finds no file of a backup (`finds_no_backup`);
if that directory goes by no name of its own, later backups hold the earlier ones
(`backup_is_found_again`).
-/
namespace Deadwood

namespace Entry

mutual
/-- A file is listed only if every directory on the way to it is entered. -/
theorem entered_of_mem_paths {enters : String → Bool} {above parts : List String} {e : Entry}
    (h : parts ∈ paths enters above e) :
    ∃ rel, parts = above ++ rel ∧ (e.isDirectory = false → rel = []) ∧
      ∀ init name rest, rel = init ++ name :: rest → rest ≠ [] → enters name = true := by
  cases e with
  | file =>
    rw [paths, List.mem_singleton] at h
    exact ⟨[], by simp [h], fun _ => rfl, fun init name rest heq => by simp at heq⟩
  | directory mode entries =>
    obtain ⟨rel, hparts, hentered⟩ := entered_of_mem_pathsAll h
    exact ⟨rel, hparts, nofun, hentered⟩

theorem entered_of_mem_pathsAll {enters : String → Bool} {above parts : List String}
    {entries : List (String × Entry)} (h : parts ∈ pathsAll enters above entries) :
    ∃ rel, parts = above ++ rel ∧
      ∀ init name rest, rel = init ++ name :: rest → rest ≠ [] → enters name = true := by
  cases entries with
  | nil => cases h
  | cons pair others =>
    obtain ⟨first, e⟩ := pair
    rw [pathsAll, List.mem_append] at h
    rcases h with h | h
    · split at h
      · cases h
      · next henters =>
        obtain ⟨rel, hparts, hfile, hentered⟩ := entered_of_mem_paths h
        refine ⟨first :: rel, by simp [hparts], fun init name rest heq hrest => ?_⟩
        cases init with
        | nil =>
          obtain ⟨rfl, rfl⟩ := List.cons.inj heq
          grind
        | cons head init => exact hentered init name rest (List.cons.inj heq).2 hrest
    · exact entered_of_mem_pathsAll h
end

end Entry

namespace Discovery

/-- What is found lies in no directory that is left out. -/
theorem not_prunes_of_mem_foundBelow {d : Discovery} {root : Entry} (init : List String)
    {name : String} {rest : List String} (h : init ++ name :: rest ∈ d.foundBelow root) (hrest : rest ≠ []) :
    d.prunes name = false := by
  obtain ⟨rel, hrel, -, hentered⟩ := Entry.entered_of_mem_paths (List.mem_filter.1 h).1
  simpa using hentered init name rest (by simpa using hrel.symm) hrest

theorem prunes_alsoIgnoring (d : Discovery) {name : String} (h : Glob.isWild name = false) :
    (d.alsoIgnoring name).prunes name = true := by
  simp [prunes, alsoIgnoring, h]

end Discovery

namespace Backup

variable {dir root start : Path} {m : Machine} {info : BackupInfo} {later : Disk} {d : Discovery}

/-- The directory that keeps backups ends in the name given for it, if it is not the root itself. -/
theorem exists_keeper_eq_concat {here : Path} {below : List String} (hup : dir.name ≠ "..")
    (hkeeper : (Path.resolve here ((Path.resolve here root).join dir)).parts =
      (Path.resolve here root).parts ++ below) (hbelow : below ≠ []) :
    ∃ init, below = init ++ [dir.name] := by
  have hparts : dir.parts ≠ [] := by
    intro hnil
    refine hbelow ?_
    by_cases habsolute : dir.isAbsolute = true
    · have hempty : (Path.resolve here dir).parts = [] := by
        rw [Path.resolve, Path.join, if_pos habsolute, hnil]
        rfl
      rw [Path.join, if_pos habsolute, hempty] at hkeeper
      exact (List.append_eq_nil_iff.1 hkeeper.symm).2
    · have hsame : (Path.resolve here root).join dir = Path.resolve here root := by
        rw [Path.join, if_neg habsolute, hnil, List.append_nil]
      rw [hsame, Path.resolve_resolve] at hkeeper
      exact List.self_eq_append_right.1 hkeeper
  have hjoin : ((Path.resolve here root).join dir).parts ≠ [] ∧
      ((Path.resolve here root).join dir).name = dir.name := by
    unfold Path.join
    split
    · exact ⟨hparts, rfl⟩
    · simp [Path.name, hparts, List.getLast?_eq_some_getLast hparts]
  rw [Path.parts_resolve_eq_concat here hjoin.1 (hjoin.2 ▸ hup), hjoin.2] at hkeeper
  refine ⟨below.dropLast, ?_⟩
  have hlast : below.getLast hbelow = dir.name := by
    have hlasts := congrArg List.getLast? hkeeper
    rw [List.getLast?_append_of_ne_nil _ hbelow, List.getLast?_concat,
      List.getLast?_eq_some_getLast hbelow] at hlasts
    exact (Option.some.inj hlasts).symm
  rw [← hlast, List.dropLast_concat_getLast hbelow]

/-- A project finds none of its backups if it leaves out the directory that keeps them. -/
theorem not_below_keptAt
    (hproject : m.disk.standing (Path.resolve m.disk.here root).parts = .directory)
    (hinfo : (create dir root m).1 = .ok info) (hup : dir.name ≠ "..")
    (hapart : Path.resolve m.disk.here ((Path.resolve m.disk.here root).join dir) ≠
      Path.resolve m.disk.here root)
    (hstart : Path.resolve later.here start = Path.resolve m.disk.here root)
    (hprunes : d.prunes dir.name = true) :
    ∀ q ∈ later.find start d, ¬ keptAt dir root m <+: q.parts := by
  intro q hq hkept
  obtain ⟨mode, entries, rel, -, hrel, rfl⟩ := Disk.mem_find.1 hq
  rw [hstart] at hkept
  dsimp only at hkept
  have hnothing := nothing_at_place
    (Disk.directory_of_isPrefix hproject List.nil_prefix) hinfo
  have houtside : ¬ keptAt dir root m <+: (Path.resolve m.disk.here root).parts := fun hprefix => by
    rw [Disk.directory_of_isPrefix hproject hprefix] at hnothing
    cases hnothing
  rw [keptAt_eq] at hkept houtside
  have hinside := (List.prefix_or_prefix_of_prefix hkept (List.prefix_append _ rel)).resolve_left
    houtside
  rcases List.prefix_concat_iff.1 hinside with heq | ⟨below, hkeeper⟩
  · exact houtside (heq ▸ List.prefix_rfl)
  · have hbelow : below ≠ [] := fun hnil => hapart (by
      rw [hnil, List.append_nil] at hkeeper
      exact congrArg (Path.mk 1) hkeeper.symm)
    obtain ⟨init, rfl⟩ := exists_keeper_eq_concat hup hkeeper.symm hbelow
    rw [← hkeeper, List.append_assoc, List.prefix_append_right_inj] at hkept
    obtain ⟨rest, rfl⟩ := hkept
    have hkeptOut : d.prunes dir.name = false :=
      Discovery.not_prunes_of_mem_foundBelow init (by simpa using hrel) (List.cons_ne_nil _ _)
    rw [hprunes] at hkeptOut
    cases hkeptOut

/-- However a project and its backups change, neither a later backup nor an analysis by a command
finds a file of an earlier backup, if the directory that keeps them goes by a plain name and is not
the root. An analysis that was told of no directory has to ignore that name by itself. -/
theorem finds_no_backup (dir root : Path) (m : Machine) {info : BackupInfo}
    (hproject : m.disk.standing (Path.resolve m.disk.here root).parts = .directory)
    (hinfo : (create dir root m).1 = .ok info) (hup : dir.name ≠ "..")
    (hplain : Glob.isWild dir.name = false)
    (hapart : Path.resolve m.disk.here ((Path.resolve m.disk.here root).join dir) ≠
      Path.resolve m.disk.here root) :
    ∀ (later : Disk) (start : Path), Path.resolve later.here start = Path.resolve m.disk.here root →
      (∀ q ∈ later.find start (discovery dir), ¬ keptAt dir root m <+: q.parts) ∧
      (∀ q ∈ later.find start (({} : Discovery).alsoIgnoring dir.name),
        ¬ keptAt dir root m <+: q.parts) ∧
      (dir.name ∈ ({} : Discovery).ignored →
        ∀ q ∈ later.find start {}, ¬ keptAt dir root m <+: q.parts) := by
  intro later start hstart
  have hskips : ∀ d : Discovery, d.prunes dir.name = true →
      ∀ q ∈ later.find start d, ¬ keptAt dir root m <+: q.parts := fun d =>
    not_below_keptAt hproject hinfo hup hapart hstart
  refine ⟨hskips _ (Discovery.prunes_alsoIgnoring _ hplain),
    hskips _ (Discovery.prunes_alsoIgnoring _ hplain), fun hmem => hskips _ ?_⟩
  exact List.any_eq_true.2 ⟨dir.name, hmem, by simp [hplain]⟩

/-- In the directory for which it is meant, a backup is found neither by the next one nor by an
analysis that was told of no directory. -/
theorem finds_no_backup_sample :
    ∃ info, (create Surgery.Sample.dir Surgery.Sample.root (Surgery.Sample.machine "a.js")).1 =
        .ok info ∧ info.files = ["a.js"] ∧
      ∀ d ∈ [discovery Surgery.Sample.dir, {}],
        ∀ q ∈ (create Surgery.Sample.dir Surgery.Sample.root
          (Surgery.Sample.machine "a.js")).2.disk.find Surgery.Sample.root d,
        ¬ ["p", ".script-doctor-backups", "backup-20240102_030405_000001"] <+: q.parts := by
  obtain ⟨info, hinfo, hfiles⟩ := Surgery.Sample.exists_info (by decide +kernel :
    Surgery.Sample.saved "a.js" = some ["a.js"])
  have hkept : keptAt Surgery.Sample.dir Surgery.Sample.root (Surgery.Sample.machine "a.js") =
      ["p", ".script-doctor-backups", "backup-20240102_030405_000001"] := by decide +kernel
  obtain ⟨hnext, -, htold⟩ := finds_no_backup Surgery.Sample.dir Surgery.Sample.root
    (Surgery.Sample.machine "a.js") (by decide +kernel) hinfo (by decide +kernel)
    (by decide +kernel) (by decide +kernel)
    (create Surgery.Sample.dir Surgery.Sample.root (Surgery.Sample.machine "a.js")).2.disk
    Surgery.Sample.root (by decide +kernel)
  rw [hkept] at hnext htold
  refine ⟨info, hinfo, hfiles, fun d hd => ?_⟩
  rcases List.mem_pair.1 hd with rfl | rfl
  · exact hnext
  · exact htold (by decide +kernel)

/-- Whether a discovery finds a copy of the file in the first backup, on the disk it leaves. -/
def Sample.findsCopy (dir : String) (d : Discovery) : Prop :=
  ∃ q ∈ (create (.ofString dir) Surgery.Sample.root (Surgery.Sample.machine "a.js")).2.disk.find
      Surgery.Sample.root d,
    q.parts = keptAt (.ofString dir) Surgery.Sample.root (Surgery.Sample.machine "a.js") ++ ["a.js"]

theorem Sample.findsCopy_of_listed {dir : String} {d : Discovery} (below : List String)
    (hkept : ["p"] ++ below =
      keptAt (.ofString dir) Surgery.Sample.root (Surgery.Sample.machine "a.js") ++ ["a.js"])
    (h : ((create (.ofString dir) Surgery.Sample.root
      (Surgery.Sample.machine "a.js")).2.disk.at? ["p"]).any
        (fun e => e.isDirectory && (d.foundBelow e).contains below) = true) :
    Sample.findsCopy dir d := by
  obtain ⟨e, he, hlisted⟩ := (Option.any_eq_true _ _).1 h
  rw [Bool.and_eq_true, List.contains_iff_mem] at hlisted
  cases e with
  | file => cases hlisted.1
  | directory mode entries =>
    exact ⟨⟨1, ["p"] ++ below⟩, Disk.mem_find.2 ⟨mode, entries, below, he, hlisted.2, rfl⟩, hkept⟩

/-- A dot and a name with brackets are left out by no name, so the next backup finds the first one;
an analysis that was told of no directory finds it under any name that it does not know. -/
theorem backup_is_found_again :
    Sample.findsCopy "." (discovery (.ofString ".")) ∧
    Sample.findsCopy "bk[1]" (discovery (.ofString "bk[1]")) ∧
    Sample.findsCopy ".bk" {} :=
  ⟨Sample.findsCopy_of_listed ["backup-20240102_030405_000001", "a.js"]
      (by decide +kernel) (by decide +kernel),
    Sample.findsCopy_of_listed ["bk[1]", "backup-20240102_030405_000001", "a.js"]
      (by decide +kernel) (by decide +kernel),
    Sample.findsCopy_of_listed [".bk", "backup-20240102_030405_000001", "a.js"]
      (by decide +kernel) (by decide +kernel)⟩

end Backup

end Deadwood
