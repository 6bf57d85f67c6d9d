import Deadwood.Proofs.Backup.Fates
import Deadwood.Proofs.Backup.Saved

/-!
Restoring from a backup in whatever state it is. The files whose copies have the digests recorded
are copied back, all others are reported at the end, and no other file changes
(`restore_copies_verified`). What stands in the way of a copy stops the restoring, or the copy goes
elsewhere (`obstacles_stop_restoring`).
-/
namespace Deadwood.Backup

open Disk

variable {d : Disk} {backup : Path} {f : SavedFile} {content : Bytes}

/-- What the manifest of a backup records. -/
def Records (d : Disk) (backup : Path) (files : List SavedFile) : Prop :=
  ∃ manifest, Manifest.read d backup = .ok manifest ∧
    recordsOf manifest = .ok (files.map SavedFile.toJson)

/-- The copy of a recorded file holds this and has the digest recorded. -/
def Verified (d : Disk) (backup : Path) (f : SavedFile) (content : Bytes) : Prop :=
  d.read (backup.join (.ofString f.path)) = .ok content ∧ Manifest.digest content = f.digest

/-- What becomes of a recorded file, by what is read in the place of its copy. -/
def fateIn (d : Disk) (backup : Path) (f : SavedFile) : Fate :=
  match d.read (backup.join (.ofString f.path)) with
  | .ok content =>
    if Manifest.digest content = f.digest then .restored f.path else .altered f.path
  | .error _ => .missing f.path

theorem problem?_fateIn : (fateIn d backup f).problem? = none ↔
    ∃ content, Verified d backup f content := by
  unfold fateIn Verified
  cases d.read (backup.join (.ofString f.path)) with
  | error e => simp [Fate.problem?]
  | ok content => by_cases hdigest : Manifest.digest content = f.digest <;>
      simp [hdigest, Fate.problem?]

theorem fateIn_of_verified (h : Verified d backup f content) :
    fateIn d backup f = .restored f.path := by
  rw [fateIn, h.1]
  exact if_pos h.2

/-- Restoring copies back the files whose copies are verified and changes no other file. It succeeds
if these are all, and else names the others, in order, each with what is wrong with its copy. -/
structure RestoresVerified (into : Option Path) (later : Disk) (backup base : Path)
    (files : List SavedFile) : Prop where
  ok : (∀ f ∈ files, ∃ content, Verified later backup f content) →
    (restore backup into later).1 = .ok (files.map (·.path))
  incomplete : ¬ (∀ f ∈ files, ∃ content, Verified later backup f content) →
    (restore backup into later).1 =
      .error (.incomplete (files.filterMap fun f => (fateIn later backup f).problem?))
  written : ∀ f ∈ files, ∀ content, Verified later backup f content →
    (restore backup into later).2.read (base.join (.ofString f.path)) = .ok content
  others : ∀ names, (∀ f ∈ files, ∀ content, Verified later backup f content →
      names ≠ (Path.resolve later.here (base.join (.ofString f.path))).parts) →
    ∀ content, (restore backup into later).2.standing names = .file content ↔
      later.standing names = .file content

theorem summary_of_verified {files : List SavedFile}
    (h : ∀ f ∈ files, ∃ content, Verified d backup f content) :
    summary (files.map (fateIn d backup)) = .ok (files.map (·.path)) := by
  have hrestored : files.map (fateIn d backup) = (files.map (·.path)).map .restored := by
    rw [List.map_map]
    refine List.map_congr_left fun f hf => ?_
    obtain ⟨content, hverified⟩ := h f hf
    exact fateIn_of_verified hverified
  rw [hrestored, summary_restored]

theorem summary_of_not_verified {files : List SavedFile}
    (h : ¬ ∀ f ∈ files, ∃ content, Verified d backup f content) :
    summary (files.map (fateIn d backup)) =
      .error (.incomplete (files.filterMap fun f => (fateIn d backup f).problem?)) := by
  have hproblems : files.filterMap (fun f => (fateIn d backup f).problem?) ≠ [] := fun hnil =>
    h fun f hf => problem?_fateIn.1 (List.filterMap_eq_nil_iff.1 hnil f hf)
  rw [summary, List.filterMap_map]
  split
  · next hnil => exact absurd hnil hproblems
  · rfl

theorem records_unique {json : Json} {timestamp root : String} {files files' : List SavedFile}
    (hjson : json = (Manifest.ofFiles timestamp root files).toJson)
    (h : recordsOf json = .ok (files'.map SavedFile.toJson)) : files' = files := by
  rw [hjson, recordsOf_toJson, Except.ok.injEq] at h
  refine List.map_injective_iff.2 (fun f f' heq => ?_) h.symm
  cases f
  cases f'
  simpa [SavedFile.toJson] using heq

/-- Records are told apart by their paths, if their digests are those of files on a disk. -/
theorem records_eq (read : String → Except FileError Bytes) {files files' : List SavedFile}
    (hpaths : files.map (·.path) = files'.map (·.path))
    (h : ∀ f ∈ files, ∃ content, f.digest = Manifest.digest content ∧ read f.path = .ok content)
    (h' : ∀ f ∈ files', ∃ content, f.digest = Manifest.digest content ∧ read f.path = .ok content) :
    files = files' := by
  induction files generalizing files' with
  | nil => exact (List.map_eq_nil_iff.1 hpaths.symm).symm
  | cons f files ih =>
    cases files' with
    | nil => cases hpaths
    | cons f' files' =>
      obtain ⟨hpath, hrest⟩ := List.cons.inj hpaths
      dsimp only at hpath
      rw [List.forall_mem_cons] at h h'
      obtain ⟨content, hdigest, hread⟩ := h.1
      obtain ⟨content', hdigest', hread'⟩ := h'.1
      rw [hpath, hread', Except.ok.injEq] at hread
      subst hread
      obtain ⟨path, digest⟩ := f
      obtain ⟨path', digest'⟩ := f'
      rw [ih hrest h.2 h'.2]
      congr 1
      exact congr (congrArg SavedFile.mk hpath) (hdigest.trans hdigest'.symm)

/-! ## A backup and what is left of it -/

section Later

variable {before after later : Disk} {place root source : Path} {kept : List String}
  {copies : List Copy} {c : Copy}

/-- The manifest of a backup can still be read, and so its directory stands. -/
theorem settle_of_read_manifest (h : later.read (Manifest.place place) = .ok content) :
    ∃ kept, later.settle place = .ok kept ∧ later.standing kept = .directory := by
  obtain ⟨names, hsettle, hfile⟩ := read_eq_ok.1 h
  obtain ⟨kept, hkept, rfl⟩ := settle_of_child (by decide) hsettle
  exact ⟨kept, hkept, directory_above_file hfile (List.cons_ne_nil _ _)⟩

/-- Copies of a backup, and where they were on another disk. -/
structure Remains (place : Path) (kept : List String) (copies : List Copy) (source : Path)
    (before later : Disk) : Prop where
  of : ∀ c ∈ copies, c.Of before source
  leads : ∀ c ∈ copies, later.Leads (place.join c.path) kept c.parts
  no_directory : ∀ c ∈ copies, later.isDirectory (place.join c.path) = false

namespace Remains

variable (h : Remains place kept copies source before later)

include h

theorem verified_iff (hc : c ∈ copies) : Verified later place c.record content ↔
    later.standing (kept ++ c.parts) = .file content ∧
      Manifest.digest content = c.record.digest := by
  rw [Verified, (h.of c hc).ofString_record, (h.leads c hc).read_iff]

theorem verifies_iff (hc : c ∈ copies) : c.Verifies (later.standing (kept ++ c.parts)) ↔
    ∃ content, Verified later place c.record content :=
  exists_congr fun _ => (h.verified_iff hc).symm

theorem standing_ne_directory (hc : c ∈ copies) :
    later.standing (kept ++ c.parts) ≠ .directory := by
  intro hdirectory
  have hsettle := (h.leads c hc).settle_of_ne_nothing (hdirectory ▸ Standing.directory_ne_nothing)
  have hno := h.no_directory c hc
  rw [isDirectory_iff.2 ⟨_, hsettle, hdirectory⟩] at hno
  cases hno

theorem fate_eq (hc : c ∈ copies) :
    c.fate (later.standing (kept ++ c.parts)) = fateIn later place c.record := by
  rw [fateIn, (h.of c hc).ofString_record]
  cases hstanding : later.standing (kept ++ c.parts) with
  | directory => exact absurd hstanding (h.standing_ne_directory hc)
  | file content =>
    rw [(h.leads c hc).read hstanding]
    rfl
  | nothing =>
    cases hread : later.read (place.join c.path) with
    | error e => rfl
    | ok content =>
      rw [(h.leads c hc).read_iff.1 hread] at hstanding
      cases hstanding

theorem target (hc : c ∈ copies) :
    (Path.resolve later.here (root.join (.ofString c.record.path))).parts =
      (Path.resolve later.here root).parts ++ c.parts := by
  rw [(h.of c hc).ofString_record]
  exact Path.parts_resolve_join _ _ (h.of c hc).ne_up

theorem ready
    (hreceives : ∀ c ∈ copies, ∀ content, Verified later place c.record content →
      later.Receives (root.join (.ofString c.record.path)))
    (hapart : ∀ c ∈ copies, ∀ content, Verified later place c.record content → ∀ c' ∈ copies,
      ¬ (Path.resolve later.here (place.join (.ofString c'.record.path))).parts <+:
        (Path.resolve later.here (root.join (.ofString c.record.path))).parts) :
    Ready place root kept (Path.resolve later.here root).parts copies later where
  saved := h.leads
  no_directory c := h.standing_ne_directory
  target c hc := (h.of c hc).ofString_record ▸ h.target hc
  receives c hc hverifies := by
    obtain ⟨content, hverified⟩ := (h.verifies_iff hc).1 hverifies
    exact (h.of c hc).ofString_record ▸ hreceives c hc content hverified
  apart c hc hverifies c' hc' := by
    obtain ⟨content, hverified⟩ := (h.verifies_iff hc).1 hverifies
    have hne := hapart c hc content hverified c' hc'
    rwa [h.target hc, (h.of c' hc').ofString_record, (h.leads c' hc').parts_resolve] at hne

end Remains

end Later

theorem Holds.read_manifest {place : Path} {kept : List String} {copies : List Copy}
    (h : Holds place kept (⟨[Manifest.fileName], content⟩ :: copies) d) :
    d.read (Manifest.place place) = .ok content :=
  (List.forall_mem_cons.1 h.read).1

/-- Files that are held can be restored. -/
theorem Holds.remains {before later : Disk} {place source : Path} {kept : List String}
    {held copies : List Copy} (h : Holds place kept held later)
    (hof : ∀ c ∈ copies, c.Of before source) (hsub : copies ⊆ held) :
    Remains place kept copies source before later where
  of := hof
  leads c hc := h.leads (hsub hc)
  no_directory c hc := by
    obtain ⟨names, hsettle, hfile⟩ := read_eq_ok.1 (h.read c (hsub hc))
    rw [Bool.eq_false_iff]
    intro hdirectory
    obtain ⟨names', hsettle', hstanding⟩ := isDirectory_iff.1 hdirectory
    rw [hsettle, Except.ok.injEq] at hsettle'
    exact ne_directory_of_file hfile (hsettle' ▸ hstanding)

section Filled

variable {before after later : Disk} {place source : Path} {copies : List Copy}
  (h : Fills before place (⟨[Manifest.fileName], content⟩ :: copies) after)
  (hmanifest : later.read (Manifest.place place) = after.read (Manifest.place place))

include h hmanifest

theorem Fills.read_manifest {json : Json} (hbytes : Manifest.ofBytes content = .ok json) :
    Manifest.read later place = .ok json :=
  Manifest.read_of_ofBytes (hmanifest.trans h.toHolds.read_manifest) hbytes

/-- What is left of a backup whose manifest can be read as it was written. -/
theorem Fills.exists_remains (hof : ∀ c ∈ copies, c.Of before source)
    (hsaved : ∀ c ∈ copies, later.isDirectory (place.join c.path) = false) :
    ∃ kept, Remains place kept copies source before later := by
  obtain ⟨kept, hkept, hdirectory⟩ :=
    settle_of_read_manifest (hmanifest.trans h.toHolds.read_manifest)
  refine ⟨kept, hof, fun c hc => ?_, hsaved⟩
  obtain ⟨names, hsettle, -⟩ := read_eq_ok.1 (h.read c (List.mem_cons_of_mem _ hc))
  exact leads_join hkept hdirectory hsettle (hof c hc).ne_up

end Filled

section Restore

variable {dir root : Path} {m : Machine} {later : Disk} {info : BackupInfo} {base : Path}

/-- The manifest of a backup can be read back. -/
theorem Taken.ofBytes_content {copies : List Copy} (h : Taken dir root m info copies) :
    Manifest.ofBytes (manifestOf m root copies).content = .ok (manifestOf m root copies).toJson := by
  have hreadable : Json.isReadable 0 (manifestOf m root copies).toJson = true :=
    Manifest.isReadable_toJson _ _ _ h.countable
  exact Manifest.ofBytes_content hreadable

/-- The manifest of a backup records the sources by their paths and digests. -/
theorem exists_records (hsound : m.disk.Sound) (hdir : dir.Normal) (hroot : root.Normal)
    (hinfo : (create dir root m).1 = .ok info) (hbackup : .ofString info.location = backup)
    (hmanifest : later.read (Manifest.place backup) =
      (create dir root m).2.disk.read (Manifest.place backup)) :
    ∃ copies, Taken dir root m info copies ∧
      backup = place m dir (Path.resolve m.disk.here root) ∧
      info.files = (copies.map Copy.record).map (·.path) ∧
      Manifest.read later backup = .ok (manifestOf m root copies).toJson ∧
      Records later backup (copies.map Copy.record) ∧
      ∀ f ∈ copies.map Copy.record, ∃ content, f.digest = Manifest.digest content ∧
        m.disk.read ((Path.resolve m.disk.here root).join (.ofString f.path)) = .ok content := by
  obtain ⟨copies, htaken⟩ := exists_taken_of_create hsound hinfo
  have hnormal : (Path.resolve m.disk.here root).Normal := Path.normal_resolve hsound.here hroot
  have hplace : backup = place m dir (Path.resolve m.disk.here root) := by
    rw [← hbackup, htaken.info]
    exact Path.ofString_toString ((hnormal.join hdir).child m.isPart_backupName)
  have hfills := htaken.fills
  rw [← hplace] at hfills
  have hread : Manifest.read later backup = .ok (manifestOf m root copies).toJson :=
    hfills.read_manifest hmanifest htaken.ofBytes_content
  refine ⟨copies, htaken, hplace, ?_, hread, ⟨_, hread, recordsOf_toJson _ _ _⟩, ?_⟩
  · rw [htaken.info]
    rfl
  · rw [List.forall_mem_map]
    intro c hc
    rw [(htaken.of c hc).ofString_record]
    exact ⟨c.content, rfl, read_plain (htaken.plain c hc) hsound.root (htaken.of c hc).standing⟩

/-- Files go back to where they were saved from, unless another directory is given. -/
theorem destination_manifestOf {copies : List Copy} (into : Option Path)
    (hnormal : (Path.resolve m.disk.here root).Normal) :
    destination into (manifestOf m root copies).toJson =
      .ok (into.getD (Path.resolve m.disk.here root)) := by
  cases into with
  | some p => rfl
  | none =>
    rw [destination, manifestOf, rootOf_toJson, Except.map, Path.ofString_toString hnormal]
    rfl

theorem Remains.restoresVerified {before : Disk} {source : Path} {kept : List String}
    {copies : List Copy} {into : Option Path} {manifest : Json}
    (h : Remains backup kept copies source before later)
    (hread : Manifest.read later backup = .ok manifest)
    (hdestination : destination into manifest = .ok base)
    (hrecords : recordsOf manifest = .ok ((copies.map Copy.record).map SavedFile.toJson))
    (hreceives : ∀ c ∈ copies, ∀ content, Verified later backup c.record content →
      later.Receives (base.join (.ofString c.record.path)))
    (hapart : ∀ c ∈ copies, ∀ content, Verified later backup c.record content → ∀ c' ∈ copies,
      ¬ (Path.resolve later.here (backup.join (.ofString c'.record.path))).parts <+:
        (Path.resolve later.here (base.join (.ofString c.record.path))).parts) :
    RestoresVerified into later backup base (copies.map Copy.record) := by
  obtain ⟨restored, heach, halters, hwritten⟩ := exists_restoreAll
    (fun c hc => (h.of c hc).ofString_record) (prefixFree_of_of h.of) (h.ready hreceives hapart)
  have hfates : (copies.map fun c => c.fate (later.standing (kept ++ c.parts))) =
      (copies.map Copy.record).map (fateIn later backup) := by
    rw [List.map_map]
    exact List.map_congr_left fun c hc => h.fate_eq hc
  have hjsons : copies.map (·.record.toJson) = (copies.map Copy.record).map SavedFile.toJson := by
    rw [List.map_map]
    rfl
  rw [hfates, hjsons] at heach
  have hrestore := restore_of_each hread hdestination hrecords heach
  refine ⟨fun hall => ?_, fun hnot => ?_, ?_, fun names hnames => ?_⟩
  · rw [hrestore]
    exact summary_of_verified hall
  · rw [hrestore]
    exact summary_of_not_verified hnot
  · rw [List.forall_mem_map, hrestore]
    intro c hc content hverified
    obtain ⟨hcontent, hdigest⟩ := (h.verified_iff hc).1 hverified
    obtain ⟨dir, rel, hleads⟩ := (hreceives c hc content hverified).leads
    refine (halters.leads hleads).read ?_
    rw [← hleads.parts_resolve, h.target hc]
    exact hwritten c hc content hcontent hdigest
  · rw [hrestore]
    refine halters.file names ?_
    rintro ⟨c, hc, hverifies, rfl⟩
    obtain ⟨content, hverified⟩ := (h.verifies_iff hc).1 hverifies
    exact hnames _ (List.mem_map_of_mem hc) content hverified (h.target hc).symm

end Restore

/-- However the copies of a backup were damaged, restoring copies back those that have the digests
of their sources, and only those, and names the others. The copies are files as far as they are
there, and verified ones go to places outside the backup where nothing is in the way. The trees have
no symbolic or hard links, and permissions refuse nothing. -/
theorem restore_copies_verified (dir root : Path) (m : Machine) (into : Option Path) (later : Disk)
    (files : List SavedFile) {info : BackupInfo} {backup base : Path} (hsound : m.disk.Sound)
    (hdir : dir.Normal) (hroot : root.Normal) (hinfo : (create dir root m).1 = .ok info)
    (hbackup : .ofString info.location = backup)
    (hbase : into.getD (Path.resolve m.disk.here root) = base)
    (hmanifest : later.read (Manifest.place backup) =
      (create dir root m).2.disk.read (Manifest.place backup))
    (hrecords : Records later backup files)
    (hsaved : ∀ f ∈ files, later.isDirectory (backup.join (.ofString f.path)) = false)
    (hreceives : ∀ f ∈ files, ∀ content, Verified later backup f content →
      later.Receives (base.join (.ofString f.path)))
    (hapart : ∀ f ∈ files, ∀ content, Verified later backup f content → ∀ f' ∈ files,
      ¬ (Path.resolve later.here (backup.join (.ofString f'.path))).parts <+:
        (Path.resolve later.here (base.join (.ofString f.path))).parts) :
    info.files = files.map (·.path) ∧
      (∀ f ∈ files, ∃ content, f.digest = Manifest.digest content ∧
        m.disk.read ((Path.resolve m.disk.here root).join (.ofString f.path)) = .ok content) ∧
      RestoresVerified into later backup base files := by
  obtain ⟨copies, htaken, hplace, hfiles, hread, -, hdigests⟩ :=
    exists_records hsound hdir hroot hinfo hbackup hmanifest
  obtain ⟨json, hread', hlist⟩ := hrecords
  obtain rfl : files = copies.map Copy.record :=
    records_unique (Except.ok.inj (hread'.symm.trans hread)) hlist
  have hfills := htaken.fills
  rw [← hplace] at hfills
  simp only [List.forall_mem_map] at hsaved hreceives hapart
  obtain ⟨kept, hremains⟩ := hfills.exists_remains hmanifest htaken.of fun c hc => by
    rw [← (htaken.of c hc).ofString_record]
    exact hsaved c hc
  have hdestination : destination into (manifestOf m root copies).toJson = .ok base :=
    hbase ▸ destination_manifestOf into (Path.normal_resolve hsound.here hroot)
  exact ⟨hfiles, hdigests, hremains.restoresVerified hread hdestination (recordsOf_toJson _ _ _)
    hreceives hapart⟩

/-- What restoring leaves, once the manifest is read, is what going from file to file leaves. -/
theorem disk_restore {later : Disk} {base : Path} {files : List SavedFile}
    (h : Records later backup files) : (restore backup (some base) later).2 =
      (Action.each (restoreFile backup base) (files.map SavedFile.toJson) later).2 := by
  obtain ⟨manifest, hread, hrecords⟩ := h
  rw [restore_of_records hread rfl hrecords]
  rcases heach : Action.each (restoreFile backup base) (files.map SavedFile.toJson) later with
    ⟨_ | fates, d⟩
  · rw [Action.bind_of_error heach]
  · rw [Action.bind_of_ok heach]
    rfl

theorem not_restoresVerified {later : Disk} {base : Path} {files : List SavedFile}
    (hrecords : Records later backup files) (hf : f ∈ files)
    (hfate : fateIn later backup f = .restored f.path)
    (hread : ((Action.each (restoreFile backup base) (files.map SavedFile.toJson) later).2.read
      (base.join (.ofString f.path))).toOption = none) :
    ¬ RestoresVerified (some base) later backup base files := by
  intro h
  obtain ⟨content, hverified⟩ := problem?_fateIn.1 (show (fateIn later backup f).problem? = none by
    rw [hfate]
    rfl)
  rw [← disk_restore hrecords, h.written f hf content hverified] at hread
  cases hread

namespace Damaged

/-- The name of the first backup of the moment, and of a directory of the project. -/
def name : String := "backup-20240102_030405_000001"

def file (content : Bytes) : Entry := .file Entry.newFileMode content

def directory (entries : List (String × Entry)) : Entry :=
  .directory Entry.newDirectoryMode entries

/-- Beside the project, a file called like its directory and a directory called like its file. -/
def machine : Machine where
  disk := { root := directory [
    ("p", directory [(name, directory [("z.js", file [102])]), ("z.js", file [103])]),
    ("q", directory [(name, file [])]),
    ("r", directory [("z.js", directory [])])] }
  now := ⟨2024, 1, 2, 3, 4, 5⟩

def root : Path := ⟨1, ["p"]⟩

def dir : Path := ⟨1, ["bk"]⟩

def location : Path := ⟨1, ["bk", name]⟩

def files : List SavedFile :=
  [⟨name ++ "/z.js", Manifest.digest [102]⟩, ⟨"z.js", Manifest.digest [103]⟩]

def sources : List Path := [root.join ⟨0, [name, "z.js"]⟩, root.join ⟨0, ["z.js"]⟩]

/-- The disk with the backup. -/
def after : Disk := (fill machine.disk.here machine.now.text root location sources machine.disk).2

theorem sound : machine.disk.Sound :=
  ⟨by decide +kernel, by decide +kernel, ⟨by decide, nofun⟩⟩

theorem normal : dir.Normal ∧ root.Normal := ⟨⟨by decide, by decide⟩, ⟨by decide, by decide⟩⟩

theorem find_eq : machine.find root (discovery dir) = sources :=
  find_of_sorted rfl (by decide +kernel) (by decide +kernel)

theorem fill_eq : fill machine.disk.here machine.now.text root location sources machine.disk =
    (.ok files, after) := by
  have hmade : (fill machine.disk.here machine.now.text root location sources
      machine.disk).1.toOption = some files := by
    decide +kernel
  exact Prod.ext (eq_ok_of_toOption hmade) rfl

theorem create_eq : (create dir root machine).1 = .ok (info machine location files) ∧
    (create dir root machine).2.disk = after :=
  create_of_fill (find_eq ▸ fill_eq)

theorem ofString_location : .ofString (info machine location files).location = location := by
  decide +kernel

/-- Wherever the manifest is left as it was, it records both files. -/
theorem records {later : Disk}
    (hmanifest : later.read (Manifest.place location) = after.read (Manifest.place location)) :
    Records later location files := by
  rw [← create_eq.2] at hmanifest
  obtain ⟨copies, -, -, hpaths, -, hrecords, hdigests⟩ :=
    exists_records sound normal.1 normal.2 create_eq.1 ofString_location hmanifest
  have hsources : ∀ f ∈ files, ∃ content, f.digest = Manifest.digest content ∧
      machine.disk.read (root.join (.ofString f.path)) = .ok content :=
    List.forall_mem_cons.2 ⟨⟨[102], rfl, by decide +kernel⟩,
      List.forall_mem_singleton.2 ⟨[103], rfl, by decide +kernel⟩⟩
  exact records_eq (fun path => machine.disk.read (root.join (.ofString path))) hpaths.symm
    hdigests hsources ▸ hrecords

/-- The disk when the copy of the first file is gone, or something else is in its place. -/
def without (e : Option Entry) : Disk := after.put ["bk", name, name, "z.js"] e

theorem read_manifest_without {e : Option Entry}
    (hleaf : ∀ below rest, e.bind (·.get? (below :: rest)) = none) :
    (without e).read (Manifest.place location) = after.read (Manifest.place location) := by
  have hroot : after.standing [] = .directory := by decide +kernel
  have hcopy : after.standing ["bk", name, name, "z.js"] ≠ .directory := by decide +kernel
  have hsettle : after.settle ⟨1, ["bk", name, name, "z.js"]⟩ = .ok ["bk", name, name, "z.js"] :=
    eq_ok_of_toOption (by decide +kernel)
  have hread : (after.read (Manifest.place location)).toOption.isSome = true := by decide +kernel
  obtain ⟨content, hcontent⟩ := Option.isSome_iff_exists.1 hread
  have hbecomes := becomes_put hroot hsettle hcopy hleaf
  rw [eq_ok_of_toOption hcontent]
  exact hbecomes.read_eq_ok hcopy hroot (by decide) (eq_ok_of_toOption hcontent)

/-- Places to restore into that a verified copy does not come to, and the disks. -/
def blocked : List (Path × Disk) := [
  -- A file is called like a directory of the project.
  (⟨1, ["q"]⟩, after),
  -- There is a directory in the place of a file.
  (⟨1, ["r"]⟩, after),
  -- A directory that the path turns back from is made in the place of a file.
  (⟨1, ["s", "z.js", ".."]⟩, after),
  -- The system takes no such path.
  (⟨1, ["\x00"]⟩, after),
  -- A file of the project goes to the place of the copy of another.
  (dir, after),
  -- There is a directory in the place of a copy.
  (⟨1, ["s"]⟩, without (some (directory [])))]

theorem blocked_stops : ∀ run ∈ blocked,
    fateIn run.2 location ⟨"z.js", Manifest.digest [103]⟩ = .restored "z.js" ∧
      ((Action.each (restoreFile location run.1) (files.map SavedFile.toJson) run.2).2.read
        (run.1.join (.ofString "z.js"))).toOption = none := by
  decide +kernel

end Damaged

/-- Each of these obstacles keeps a verified copy from its place, though that is outside the
backup. -/
theorem obstacles_stop_restoring :
    (create Damaged.dir Damaged.root Damaged.machine).1 =
        .ok (info Damaged.machine Damaged.location Damaged.files) ∧
      ∀ run ∈ Damaged.blocked,
        run.2.read (Manifest.place Damaged.location) =
          (create Damaged.dir Damaged.root Damaged.machine).2.disk.read
            (Manifest.place Damaged.location) ∧
        Records run.2 Damaged.location Damaged.files ∧
        ¬ Damaged.location.parts <+: (Path.resolve run.2.here run.1).parts ∧
        ¬ RestoresVerified (some run.1) run.2 Damaged.location run.1 Damaged.files := by
  refine ⟨Damaged.create_eq.1, fun run hrun => ?_⟩
  have hmanifest : run.2.read (Manifest.place Damaged.location) =
      Damaged.after.read (Manifest.place Damaged.location) := by
    simp only [Damaged.blocked, List.mem_cons, List.not_mem_nil, or_false] at hrun
    obtain rfl | rfl | rfl | rfl | rfl | rfl := hrun
    iterate 5 rfl
    exact Damaged.read_manifest_without fun _ _ => rfl
  have houtside : ∀ run ∈ Damaged.blocked,
      ¬ Damaged.location.parts <+: (Path.resolve run.2.here run.1).parts := by
    decide +kernel
  obtain ⟨hfate, hnone⟩ := Damaged.blocked_stops run hrun
  have hrecords := Damaged.records hmanifest
  rw [Damaged.create_eq.2]
  exact ⟨hmanifest, hrecords, houtside run hrun, not_restoresVerified hrecords
    (List.mem_cons_of_mem _ (List.mem_singleton_self _)) hfate hnone⟩

/-- With one of two copies gone, the other is restored into a new directory. -/
theorem restore_copies_verified_sample :
    RestoresVerified (some ⟨1, ["s"]⟩) (Damaged.without none) Damaged.location ⟨1, ["s"]⟩
        Damaged.files ∧
      (restore Damaged.location (some ⟨1, ["s"]⟩) (Damaged.without none)).1 =
        .error (.incomplete [Damaged.name ++ "/z.js: missing from backup"]) ∧
      (restore Damaged.location (some ⟨1, ["s"]⟩) (Damaged.without none)).2.read
        ⟨1, ["s", "z.js"]⟩ = .ok [103] := by
  have hmanifest := Damaged.read_manifest_without (e := none) fun _ _ => rfl
  have hplaces : ∀ f ∈ Damaged.files,
      (Damaged.without none).Receives (Path.join ⟨1, ["s"]⟩ (.ofString f.path)) := by
    have hroot : (Damaged.without none).standing [] = .directory := by decide +kernel
    have hnothing : (Damaged.without none).standing ([] ++ ["s"]) = .nothing := by decide +kernel
    have hpath : ∀ f ∈ Damaged.files, (Path.join ⟨1, ["s"]⟩ (.ofString f.path)).hasNull = false ∧
        (Path.join ⟨1, ["s"]⟩ (.ofString f.path)).toString.utf8ByteSize ≤ maxPathSize ∧
        (∀ part ∈ (Path.join ⟨1, ["s"]⟩ (.ofString f.path)).parts,
          part ≠ ".." ∧ part.utf8ByteSize ≤ maxNameSize) ∧
        (Path.join ⟨1, ["s"]⟩ (.ofString f.path)).isAbsolute = true ∧
        (Path.join ⟨1, ["s"]⟩ (.ofString f.path)).parts = "s" :: (Path.ofString f.path).parts := by
      decide +kernel
    intro f hf
    obtain ⟨hnull, hsize, hpart, habsolute, hparts⟩ := hpath f hf
    have hleads := Plain.leads ⟨habsolute, hnull, hsize, hpart⟩ hroot
    refine ⟨⟨_, _, hleads⟩, ?_⟩
    rw [hleads.parts_resolve, hparts]
    exact admits_of_nothing hroot hnothing
  have hapart : ∀ f ∈ Damaged.files, ∀ f' ∈ Damaged.files,
      ¬ (Path.resolve (Damaged.without none).here
          (Damaged.location.join (.ofString f'.path))).parts <+:
        (Path.resolve (Damaged.without none).here
          (Path.join ⟨1, ["s"]⟩ (.ofString f.path))).parts := by
    decide +kernel
  obtain ⟨-, -, hrestores⟩ := restore_copies_verified Damaged.dir Damaged.root Damaged.machine
    (some ⟨1, ["s"]⟩) (Damaged.without none) Damaged.files Damaged.sound Damaged.normal.1
    Damaged.normal.2 Damaged.create_eq.1 Damaged.ofString_location rfl
    (Damaged.create_eq.2 ▸ hmanifest) (Damaged.records hmanifest) (by decide +kernel)
    (fun f hf _ _ => hplaces f hf) fun f hf _ _ => hapart f hf
  have hproblems : Damaged.files.filterMap (fun f =>
      (fateIn (Damaged.without none) Damaged.location f).problem?) =
      [Damaged.name ++ "/z.js: missing from backup"] := by
    decide +kernel
  refine ⟨hrestores, ?_, hrestores.written ⟨"z.js", Manifest.digest [103]⟩
    (List.mem_cons_of_mem _ (List.mem_singleton_self _)) [103] ⟨?_, rfl⟩⟩
  · rw [hrestores.incomplete fun hall => ?_, hproblems]
    have hnil := List.filterMap_eq_nil_iff.2 fun f hf => problem?_fateIn.2 (hall f hf)
    rw [hproblems] at hnil
    cases hnil
  · exact eq_ok_of_toOption (by decide +kernel)

end Deadwood.Backup
