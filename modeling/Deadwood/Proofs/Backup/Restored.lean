import Deadwood.Proofs.Backup.Verified
import Deadwood.Proofs.Surgery.Untouched

/-!
Restoring what a backup holds. All files of a backup that was left alone are copied back, if nothing
stands in their way (`Taken.restoresVerified`), and so a run and all that comes after it can be
undone for the files that were saved (`restore_brings_back`).
-/
namespace Deadwood

namespace Backup

open Disk

/-- An issue of an analysis of a machine names no file of a backup made later. -/
theorem not_kept_of_unused {g : Grammar} {dir root start : Path} {m : Machine} {info : BackupInfo}
    {options : AnalysisOptions} {d : Discovery} {verbose : Bool} {i : Issue}
    (hsound : m.disk.Sound) (hstart : start.Normal) (hinfo : (create dir root m).1 = .ok info)
    (hi : i ∈ (Analysis.indexProject g m start options d verbose).index.issues)
    (hunused : i.unusedSymbol?.isSome = true) :
    ¬ keptAt dir root m <+: (Path.resolve m.disk.here (.ofString i.file)).parts := by
  obtain ⟨q, hq, hfile⟩ := Analysis.exists_path_of_unused hi hunused
  obtain ⟨rel, content, rfl, hnames, hstanding, -⟩ := exists_file_of_mem_find hsound hq
  have hnormal : ((Path.resolve m.disk.here start).join ⟨0, rel⟩).Normal :=
    (Path.normal_resolve hsound.here hstart).join
      ⟨Nat.zero_le 2, fun name hname => (hnames name hname).1⟩
  have hparts := Path.parts_resolve_join m.disk.here (Path.resolve m.disk.here start)
    fun name hname => (hnames name hname).2
  rw [Path.resolve_resolve] at hparts
  rw [hfile, Path.ofString_toString hnormal, hparts]
  exact fun hprefix => ne_nothing_of_isPrefix (ne_nothing_of_file hstanding) hprefix
    (nothing_at_place hsound.root hinfo)

/-- The place of a source is reached from the root of any disk. -/
theorem Taken.leads {dir root : Path} {m : Machine} {info : BackupInfo} {copies : List Copy}
    {c : Copy} {later : Disk} (h : Taken dir root m info copies)
    (hdirectory : later.standing [] = .directory) (hc : c ∈ copies) :
    later.Leads ((Path.resolve m.disk.here root).join (.ofString c.record.path)) []
      ((Path.resolve m.disk.here root).join (.ofString c.record.path)).parts := by
  rw [(h.of c hc).ofString_record]
  exact (h.plain c hc).leads hdirectory

/-- Where all copies and their manifest are held, they are restored, if nothing stands in the way
of their files. -/
theorem Taken.restoresVerified {dir root : Path} {m : Machine} {info : BackupInfo}
    {copies : List Copy} {later : Disk} (h : Taken dir root m info copies)
    (hsound : m.disk.Sound) (hroot : root.Normal) (hinfo : (create dir root m).1 = .ok info)
    (hholds : Holds (place m dir (Path.resolve m.disk.here root)) (keptAt dir root m)
      (⟨[Manifest.fileName], (manifestOf m root copies).content⟩ :: copies) later)
    (hadmits : ∀ c ∈ copies,
      later.Admits ((Path.resolve m.disk.here root).join (.ofString c.record.path)).parts) :
    RestoresVerified none later (place m dir (Path.resolve m.disk.here root))
      (Path.resolve m.disk.here root) (copies.map Copy.record) := by
  have hread : Manifest.read later (place m dir (Path.resolve m.disk.here root)) =
      .ok (manifestOf m root copies).toJson :=
    Manifest.read_of_ofBytes hholds.read_manifest h.ofBytes_content
  have hdestination : destination none (manifestOf m root copies).toJson =
      .ok (Path.resolve m.disk.here root) :=
    destination_manifestOf none (Path.normal_resolve hsound.here hroot)
  have hremains := hholds.remains h.of (List.subset_cons_self _ _)
  refine hremains.restoresVerified hread hdestination (recordsOf_toJson _ _ _)
    (fun c hc content hverified => ?_) fun c hc content hverified c' hc' hprefix => ?_
  · have hleads := h.leads hholds.root_directory hc
    refine ⟨⟨_, _, hleads⟩, ?_⟩
    rw [hleads.parts_resolve]
    exact hadmits c hc
  · rw [(h.leads hholds.root_directory hc).parts_resolve, (h.of c hc).ofString_record,
      (h.of c' hc').ofString_record, (hholds.leads (List.mem_cons_of_mem _ hc')).parts_resolve]
      at hprefix
    exact (h.of c hc).not_isPrefix (nothing_at_place hsound.root hinfo)
      ((List.prefix_append _ _).trans hprefix)

/-- After a run every copy is still held, and the manifest of them all. -/
theorem Taken.holds_of_operate {g : Grammar} {o : SurgeryOptions} {dir root : Path} {m : Machine}
    {issues : List Issue} {info : BackupInfo} {copies : List Copy} (h : Taken dir root m info copies)
    (hneeds : Surgery.needsBackup o = true) (hinfo : (create dir root m).1 = .ok info)
    (hissues : ∀ i ∈ issues, i.unusedSymbol?.isSome = true →
      ¬ keptAt dir root m <+: (Path.resolve m.disk.here (.ofString i.file)).parts) :
    Holds (place m dir (Path.resolve m.disk.here root)) (keptAt dir root m)
      (⟨[Manifest.fileName], (manifestOf m root copies).content⟩ :: copies)
      (Surgery.operate g o (create dir root) issues m).files.disk := by
  have hname : m.backupName.toList.head? ≠ some '.' := by simp [m.head_backupName]
  rw [keptAt_eq] at hissues
  have halters := Surgery.alters_operate (g := g) h.fills.root_directory hname hneeds
    (Prod.ext hinfo rfl) (by rw [h.fills.within.here]; exact hissues)
  rw [← keptAt_eq] at halters
  exact h.fills.toHolds.alters halters fun c _ hoff => hoff (List.prefix_append _ _)

/-- A live run with a backup, and all that happens later outside the backup, is undone for the
files of the backup, if nothing stands in their way; every other file stays as it is. No issue may
name a file of the backup itself, which none of an analysis made before does. The trees have no
symbolic or hard links, and permissions refuse nothing. -/
theorem restore_brings_back (g : Grammar) (o : SurgeryOptions) (dir root : Path) (m : Machine)
    (issues : List Issue) (later : Disk) {info : BackupInfo} (hsound : m.disk.Sound)
    (hdir : dir.Normal) (hroot : root.Normal) (hneeds : Surgery.needsBackup o = true)
    (hinfo : (create dir root m).1 = .ok info)
    (hissues : ∀ i ∈ issues, i.unusedSymbol?.isSome = true →
      ¬ keptAt dir root m <+: (Path.resolve m.disk.here (.ofString i.file)).parts)
    (hkept : later.lookup? (.ofString info.location) =
      (Surgery.operate g o (create dir root) issues m).files.disk.lookup? (.ofString info.location))
    (hadmits : ∀ path ∈ info.files,
      later.Admits ((Path.resolve m.disk.here root).join (.ofString path)).parts) :
    ∃ restored, restore (.ofString info.location) none later = (.ok info.files, restored) ∧
      (∀ path ∈ info.files, ∃ content,
        m.disk.read ((Path.resolve m.disk.here root).join (.ofString path)) = .ok content ∧
        restored.read ((Path.resolve m.disk.here root).join (.ofString path)) = .ok content) ∧
      ∀ names, (∀ path ∈ info.files,
          names ≠ ((Path.resolve m.disk.here root).join (.ofString path)).parts) →
        ∀ content, restored.standing names = .file content ↔ later.standing names = .file content := by
  obtain ⟨copies, htaken⟩ := exists_taken_of_create hsound hinfo
  have hnormal : (Path.resolve m.disk.here root).Normal := Path.normal_resolve hsound.here hroot
  have hplace : (place m dir (Path.resolve m.disk.here root)).isAbsolute = true :=
    Path.isAbsolute_join (Path.isAbsolute_join rfl dir) ⟨0, [m.backupName]⟩
  have hlocation : .ofString info.location = place m dir (Path.resolve m.disk.here root) := by
    rw [htaken.info]
    exact Path.ofString_toString ((hnormal.join hdir).child m.isPart_backupName)
  have hfiles : info.files = (copies.map Copy.record).map (·.path) := by
    rw [htaken.info]
    rfl
  have hpath : ∀ c ∈ copies, Path.ofString c.record.path = c.path :=
    fun c hc => (htaken.of c hc).ofString_record
  have hmem : ∀ c ∈ copies, c.record.path ∈ info.files := fun c hc =>
    hfiles ▸ List.mem_map_of_mem (List.mem_map_of_mem hc)
  rw [hlocation] at hkept ⊢
  have hholds := (htaken.holds_of_operate (g := g) hneeds hinfo hissues).of_lookup? hplace hkept
  have hverified : ∀ c ∈ copies, Verified later (place m dir (Path.resolve m.disk.here root))
      c.record c.content := fun c hc => by
    rw [Verified, hpath c hc]
    exact ⟨hholds.read c (List.mem_cons_of_mem _ hc), rfl⟩
  have hrestores := htaken.restoresVerified hsound hroot hinfo hholds fun c hc =>
    hadmits _ (hmem c hc)
  refine ⟨_, Prod.ext ((hrestores.ok ?_).trans (congrArg _ hfiles.symm)) rfl, ?_,
    fun names hnames => hrestores.others names ?_⟩
  · exact List.forall_mem_map.2 fun c hc => ⟨c.content, hverified c hc⟩
  · rw [hfiles, List.forall_mem_map, List.forall_mem_map]
    intro c hc
    refine ⟨c.content, ?_,
      hrestores.written _ (List.mem_map_of_mem hc) c.content (hverified c hc)⟩
    rw [hpath c hc]
    exact read_plain (htaken.plain c hc) hsound.root (htaken.of c hc).standing
  · rw [List.forall_mem_map]
    intro c hc _ _
    rw [(htaken.leads hholds.root_directory hc).parts_resolve]
    exact hnames _ (hmem c hc)

/-- The disk after a run in which an unused function was removed. -/
def Sample.ran : Disk :=
  (Surgery.operate Surgery.Sample.grammar Surgery.Sample.options
    (create Surgery.Sample.dir Surgery.Sample.root) (Surgery.Sample.issues "a.js")
    (Surgery.Sample.machine "a.js")).files.disk

/-- The run leaves the file empty, and restoring its backup brings the function back. -/
theorem restore_brings_back_sample :
    Sample.ran.standing ["p", "a.js"] = .file [] ∧ ∃ info restored,
      (create Surgery.Sample.dir Surgery.Sample.root (Surgery.Sample.machine "a.js")).1 = .ok info ∧
      restore (.ofString info.location) none Sample.ran = (.ok ["a.js"], restored) ∧
      restored.read ⟨1, ["p", "a.js"]⟩ = .ok Index.Sample.defining.source := by
  have hfile : Sample.ran.standing ["p", "a.js"] = .file [] := by decide +kernel
  have hsound : (Surgery.Sample.machine "a.js").disk.Sound :=
    ⟨by decide +kernel, by decide +kernel, ⟨by decide, nofun⟩⟩
  have hroot : Surgery.Sample.root.Normal := ⟨by decide, by decide⟩
  obtain ⟨info, hinfo, hfiles⟩ := Surgery.Sample.exists_info (by decide +kernel :
    Surgery.Sample.saved "a.js" = some ["a.js"])
  have htarget : (Path.resolve (Surgery.Sample.machine "a.js").disk.here
      Surgery.Sample.root).join (.ofString "a.js") = ⟨1, ["p", "a.js"]⟩ := by decide +kernel
  obtain ⟨restored, hrestore, hreads, -⟩ := restore_brings_back Surgery.Sample.grammar
    Surgery.Sample.options Surgery.Sample.dir Surgery.Sample.root (Surgery.Sample.machine "a.js")
    (Surgery.Sample.issues "a.js") Sample.ran hsound (Path.normal_ofString _) hroot rfl hinfo
    (fun i hi hunused => not_kept_of_unused hsound hroot hinfo hi hunused) rfl
    (by
      rw [hfiles, List.forall_mem_singleton, htarget]
      exact admits_of_file hfile)
  rw [hfiles] at hrestore hreads
  obtain ⟨content, hbefore, hafter⟩ := hreads "a.js" (List.mem_singleton_self _)
  have hsource : (Surgery.Sample.machine "a.js").disk.read ⟨1, ["p", "a.js"]⟩ =
      .ok Index.Sample.defining.source := rfl
  rw [htarget] at hbefore hafter
  rw [hsource, Except.ok.injEq] at hbefore
  exact ⟨hfile, info, restored, hinfo, hrestore, hbefore ▸ hafter⟩

end Backup

end Deadwood
