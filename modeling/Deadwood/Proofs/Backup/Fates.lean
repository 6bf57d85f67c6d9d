import Deadwood.Proofs.Backup.Holding
import Deadwood.Proofs.Backup.Recorded

/-!
What becomes of recorded files. Each is copied back if its copy is there with the digest recorded,
and is reported if not (`exists_restoreFile`). One file does not touch the copies of the others or
the places they go to, so all of them meet the fate that the backup holds for them at the start
(`exists_restoreAll`).
-/
namespace Deadwood

namespace Disk

variable {d d' : Disk} {names : List String} {content : Bytes}

/-- A file can be put there once the directories on the way are made. -/
structure Admits (d : Disk) (names : List String) : Prop where
  free : d.standing names ≠ .directory
  way : ∀ init, init <+: names → init ≠ names → ∀ content, d.standing init ≠ .file content

theorem admits_of_file (h : d.standing names = .file content) : d.Admits names where
  free := ne_directory_of_file h
  way init hinit hne content' hfile := by
    obtain ⟨rest, rfl⟩ := hinit
    have hrest : rest ≠ [] := fun hnil => hne (by rw [hnil, List.append_nil])
    exact absurd (directory_above_file h hrest) (ne_directory_of_file hfile)

/-- In a directory where nothing has a name, a file can be put at that name and below it. -/
theorem admits_of_nothing {dir rest : List String} {name : String}
    (hdir : d.standing dir = .directory) (hnothing : d.standing (dir ++ [name]) = .nothing) :
    d.Admits (dir ++ name :: rest) := by
  have hname : dir ++ [name] <+: dir ++ name :: rest :=
    (List.prefix_append_right_inj dir).2 ⟨rest, rfl⟩
  refine ⟨fun hdirectory => ?_, fun init hinit _ content hfile => ?_⟩
  · rw [directory_of_isPrefix hdirectory hname] at hnothing
    cases hnothing
  · have hbelow : ¬ dir ++ [name] <+: init := fun hprefix =>
      ne_nothing_of_isPrefix (ne_nothing_of_file hfile) hprefix hnothing
    have habove : init <+: dir := by
      rcases List.prefix_or_prefix_of_prefix hinit hname with hprefix | hprefix
      · exact (List.prefix_concat_iff.1 hprefix).resolve_left fun heq =>
          hbelow (heq ▸ List.prefix_rfl)
      · exact absurd hprefix hbelow
    exact ne_directory_of_file hfile (directory_of_isPrefix hdir habove)

/-- A file can be put at the end of a path that goes down from a directory. -/
structure Receives (d : Disk) (p : Path) : Prop where
  leads : ∃ dir rel, d.Leads p dir rel
  admits : d.Admits (Path.resolve d.here p).parts

end Disk

namespace Backup

open Disk

/-- The directories above a name. -/
def Above (names : List String) (above : List String) : Prop := above <+: names ∧ above ≠ names

theorem exists_copyBack {d : Disk} {source target : Path} {old dir rel : List String}
    {content : Bytes} (hsource : d.settle source = .ok old) (hfile : d.standing old = .file content)
    (htarget : d.Leads target dir rel) (hadmits : d.Admits (dir ++ rel)) (hne : old ≠ dir ++ rel) :
    ∃ d', copyBack source target d = (.ok (), d') ∧
      d.Alters d' (· = dir ++ rel) (Above (dir ++ rel)) ∧
      d'.standing (dir ++ rel) = .file content := by
  rcases List.eq_nil_or_concat' rel with rfl | ⟨above, last, rfl⟩
  · rw [List.append_nil] at hadmits
    exact absurd htarget.directory hadmits.free
  -- No directory is made at the target itself, or the copy would go into it.
  have habove : ∀ init, init <+: above → Above (dir ++ (above ++ [last])) (dir ++ init) :=
    fun init hinit => ⟨(List.prefix_append_right_inj dir).2 (hinit.trans (List.prefix_append _ _)),
      fun heq => by
        have hlength := hinit.length_le
        rw [List.append_cancel_left heq, List.length_append, List.length_singleton] at hlength
        omega⟩
  obtain ⟨d₁, hmake⟩ := exists_makeDirectories htarget.parent fun init hinit =>
    hadmits.way _ (habove init hinit).1 (habove init hinit).2
  obtain ⟨hgrows, hdirectory, -⟩ := made_of_makeDirectories htarget.root_directory hmake
  have hmade : d.Alters d₁ (· = dir ++ (above ++ [last])) (Above (dir ++ (above ++ [last]))) :=
    (htarget.parent.alters_of_grows hgrows).mono (fun _ => id) fun _ ⟨init, hinit, hn⟩ =>
      hn ▸ habove init hinit
  have htarget₁ := hmade.leads htarget
  obtain ⟨names, hnames, hparent⟩ := isDirectory_iff.1 hdirectory
  rw [parts_of_settle htarget₁.root_directory hnames, htarget₁.parent.parts_resolve] at hparent
  have hfree : d₁.standing (dir ++ (above ++ [last])) ≠ .directory := fun hd =>
    (hmade.made _ hd).elim hadmits.free fun h => h.2 rfl
  have hsettle : d₁.settle target = .ok (dir ++ (above ++ [last])) :=
    htarget₁.settle fun init hinit hne => directory_of_isPrefix hparent
      ((List.prefix_append_right_inj dir).2 ((List.prefix_concat_iff.1 hinit).resolve_left hne))
  obtain ⟨d', hcopy, hbecomes⟩ := exists_copy htarget₁.root_directory (hmade.settle hsource)
    (hgrows.file_iff.2 hfile) hsettle hfree hne
  refine ⟨d', ?_, hmade.trans (.of_becomes hbecomes hfree (Standing.file_ne_directory content) rfl),
    hbecomes.self⟩
  rw [copyBack, Action.bind_of_ok (Action.change_eq_ok (u := ()).2 hmake)]
  exact Action.change_eq_ok.2 hcopy

theorem shaped_eq_ok {α : Type} {r : Except Misshape α} {a : α} (h : r = .ok a) (d : Disk) :
    shaped r d = (.ok a, d) := by
  rw [h]
  rfl

theorem onDisk_eq_ok {d d' : Disk} {α : Type} {act : Disk.Action FileError α} {a : α}
    (h : act d = (.ok a, d')) : onDisk act d = (.ok a, d') := by
  unfold onDisk Action.mapError
  rw [h]
  rfl

namespace Copy

/-- What stands in the place of the copy is a file with the digest recorded. -/
def Verifies (c : Copy) (s : Standing) : Prop :=
  ∃ content, s = .file content ∧ Manifest.digest content = c.record.digest

/-- What becomes of the file, by what stands in the place of its copy. -/
def fate (c : Copy) : Standing → Fate
  | .file content =>
    if Manifest.digest content = c.record.digest then .restored c.record.path
    else .altered c.record.path
  | _ => .missing c.record.path

end Copy

/-! ## One file -/

section Step

variable {d d' : Disk} {backup root : Path} {kept : List String} {c : Copy} {content : Bytes}
  (hname : .ofString c.record.path = c.path)

include hname

theorem restoreFile_of_missing (hstat : d.stat (backup.join c.path) = .ok none) :
    restoreFile backup root c.record.toJson d = (.ok (.missing c.record.path), d) := by
  rw [restoreFile, Action.bind_of_ok (shaped_eq_ok (pathOf_toJson c.record) d), hname,
    Action.bind_of_ok (onDisk_eq_ok (Action.ask_eq_ok.2 ⟨hstat, rfl⟩))]
  rfl

/-- The digest decides on a copy that can be read. -/
theorem restoreFile_of_read (hread : d.read (backup.join c.path) = .ok content) :
    restoreFile backup root c.record.toJson d =
      if c.record.digest = Manifest.digest content then
        (do
          onDisk (copyBack (backup.join c.path) (root.join c.path))
          return .restored c.record.path : RestoreAction Fate) d
      else (.ok (.altered c.record.path), d) := by
  obtain ⟨names, hsettle, hfile⟩ := read_eq_ok.1 hread
  obtain ⟨mode, hat⟩ := standing_eq_file_iff.1 hfile
  have hstat : d.stat (backup.join c.path) = .ok (some (.file mode content)) := by
    rw [stat_of_settle hsettle, hat]
  rw [restoreFile, Action.bind_of_ok (shaped_eq_ok (pathOf_toJson c.record) d), hname,
    Action.bind_of_ok (onDisk_eq_ok (Action.ask_eq_ok.2 ⟨hstat, rfl⟩))]
  dsimp only [Option.isNone_some]
  rw [if_neg Bool.false_ne_true,
    Action.bind_of_ok (onDisk_eq_ok (Action.ask_eq_ok.2 ⟨hread, rfl⟩)),
    Action.bind_of_ok (shaped_eq_ok (digest_toJson c.record) d)]
  dsimp only
  split
  · rfl
  · rfl

theorem exists_restoreFile (hsaved : d.Leads (backup.join c.path) kept c.parts)
    (hno : d.standing (kept ++ c.parts) ≠ .directory)
    (hready : c.Verifies (d.standing (kept ++ c.parts)) → d.Receives (root.join c.path) ∧
      kept ++ c.parts ≠ (Path.resolve d.here (root.join c.path)).parts) :
    ∃ d', restoreFile backup root c.record.toJson d =
        (.ok (c.fate (d.standing (kept ++ c.parts))), d') ∧
      d.Alters d'
        (fun n => c.Verifies (d.standing (kept ++ c.parts)) ∧
          n = (Path.resolve d.here (root.join c.path)).parts)
        (fun n => c.Verifies (d.standing (kept ++ c.parts)) ∧
          Above (Path.resolve d.here (root.join c.path)).parts n) ∧
      ∀ content, d.standing (kept ++ c.parts) = .file content →
        Manifest.digest content = c.record.digest →
        d'.standing (Path.resolve d.here (root.join c.path)).parts = .file content := by
  cases hstanding : d.standing (kept ++ c.parts) with
  | directory => exact absurd hstanding hno
  | nothing =>
    exact ⟨d, restoreFile_of_missing hname (hsaved.stat_eq_none hstanding), .refl .., nofun⟩
  | file content =>
    have hread := hsaved.read hstanding
    rw [restoreFile_of_read hname hread, Copy.fate]
    by_cases hdigest : Manifest.digest content = c.record.digest
    · have hverifies : c.Verifies (.file content) := ⟨content, rfl, hdigest⟩
      obtain ⟨hreceives, hne⟩ := hready (hstanding ▸ hverifies)
      obtain ⟨dir, rel, hleads⟩ := hreceives.leads
      have hadmits := hreceives.admits
      rw [hleads.parts_resolve] at hadmits hne ⊢
      obtain ⟨d', hcopy, halters, hfile⟩ := exists_copyBack
        (hsaved.settle_of_ne_nothing (ne_nothing_of_file hstanding)) hstanding hleads hadmits hne
      refine ⟨d', ?_, halters.mono (fun n hn => ⟨hverifies, hn⟩) (fun n hn => ⟨hverifies, hn⟩), ?_⟩
      · rw [if_pos hdigest.symm, if_pos hdigest, Action.bind_of_ok (onDisk_eq_ok hcopy)]
        rfl
      · rintro _ ⟨⟩ -
        exact hfile
    · refine ⟨d, ?_, .refl .., ?_⟩
      · rw [if_neg (Ne.symm hdigest), if_neg hdigest]
      · rintro _ ⟨⟩ hdigest'
        exact absurd hdigest' hdigest

end Step

/-! ## All files -/

/-- A file that came to its place is in the way of no other, if neither place lies below the
other. -/
theorem receives_of_alters {d d' : Disk} {p : Path} {names : List String}
    (hd : d.Alters d' (· = names) (Above names)) (h : d.Receives p)
    (hbelow : names <+: (Path.resolve d.here p).parts → names = (Path.resolve d.here p).parts)
    (habove : (Path.resolve d.here p).parts <+: names → (Path.resolve d.here p).parts = names) :
    d'.Receives p where
  leads := by
    obtain ⟨dir, rel, hleads⟩ := h.leads
    exact ⟨dir, rel, hd.leads hleads⟩
  admits := by
    rw [hd.here]
    refine ⟨fun hdirectory => ?_, fun init hinit hne content hfile => ?_⟩
    · rcases hd.made _ hdirectory with hold | ⟨hdown, hne⟩
      · exact h.admits.free hold
      · exact hne (habove hdown)
    · by_cases heq : init = names
      · subst heq
        exact hne (hbelow hinit)
      · exact h.admits.way init hinit hne content ((hd.file init heq content).1 hfile)

section Run

variable {place root : Path} {kept base : List String} {copies : List Copy} {c : Copy}
  {d d' : Disk}

/-- Where copies are to be kept in a backup stand files or nothing, and the places that those which
verify go to can receive them and lie neither at nor below that of a copy. -/
structure Ready (place root : Path) (kept base : List String) (copies : List Copy) (d : Disk) :
    Prop where
  saved : ∀ c ∈ copies, d.Leads (place.join c.path) kept c.parts
  no_directory : ∀ c ∈ copies, d.standing (kept ++ c.parts) ≠ .directory
  target : ∀ c ∈ copies, (Path.resolve d.here (root.join c.path)).parts = base ++ c.parts
  receives : ∀ c ∈ copies, c.Verifies (d.standing (kept ++ c.parts)) →
    d.Receives (root.join c.path)
  apart : ∀ c ∈ copies, c.Verifies (d.standing (kept ++ c.parts)) →
    ∀ c' ∈ copies, ¬ kept ++ c'.parts <+: base ++ c.parts

/-- No file of a backup is called like a directory on the way to another. -/
def PrefixFree (copies : List Copy) : Prop :=
  ∀ c ∈ copies, ∀ c' ∈ copies, c.parts <+: c'.parts → c.parts = c'.parts

theorem prefixFree_of_of {before : Disk} {source : Path}
    (hof : ∀ c ∈ copies, c.Of before source) : PrefixFree copies := fun c hc c' hc' hprefix =>
  List.append_cancel_left ((hof c hc).eq_of_isPrefix (hof c' hc')
    ((List.prefix_append_right_inj source.parts).2 hprefix))

section Tail

variable (h : Ready place root kept base (c :: copies) d)
  (hd : d.Alters d'
    (fun n => c.Verifies (d.standing (kept ++ c.parts)) ∧ n = base ++ c.parts)
    (fun n => c.Verifies (d.standing (kept ++ c.parts)) ∧ Above (base ++ c.parts) n))

include h hd

/-- What is kept of the files stays as it was when one is copied back. -/
theorem Ready.standing_eq {c' : Copy} (hc' : c' ∈ c :: copies) :
    d'.standing (kept ++ c'.parts) = d.standing (kept ++ c'.parts) := by
  refine hd.standing_eq (fun ⟨hverifies, heq⟩ => ?_) fun ⟨hverifies, habove, _⟩ => ?_
  · exact h.apart c List.mem_cons_self hverifies c' hc' (heq ▸ List.prefix_rfl)
  · exact h.apart c List.mem_cons_self hverifies c' hc' habove

theorem Ready.tail (hfree : PrefixFree (c :: copies)) : Ready place root kept base copies d' where
  saved c' hc' := hd.leads (h.saved c' (List.mem_cons_of_mem _ hc'))
  no_directory c' hc' := by
    rw [h.standing_eq hd (List.mem_cons_of_mem _ hc')]
    exact h.no_directory c' (List.mem_cons_of_mem _ hc')
  target c' hc' := by
    rw [hd.here]
    exact h.target c' (List.mem_cons_of_mem _ hc')
  receives c' hc' hverifies := by
    have hmem := List.mem_cons_of_mem c hc'
    rw [h.standing_eq hd hmem] at hverifies
    have htarget := h.target c' hmem
    refine receives_of_alters (hd.mono (fun n hn => hn.2) fun n hn => hn.2)
      (h.receives c' hmem hverifies) (fun hprefix => ?_) fun hprefix => ?_
    · rw [htarget, List.prefix_append_right_inj] at hprefix
      rw [htarget, hfree c List.mem_cons_self c' hmem hprefix]
    · rw [htarget, List.prefix_append_right_inj] at hprefix
      rw [htarget, hfree c' hmem c List.mem_cons_self hprefix]
  apart c' hc' hverifies c'' hc'' := by
    rw [h.standing_eq hd (List.mem_cons_of_mem _ hc')] at hverifies
    exact h.apart c' (List.mem_cons_of_mem _ hc') hverifies c'' (List.mem_cons_of_mem _ hc'')

end Tail

theorem exists_restoreAll (hname : ∀ c ∈ copies, .ofString c.record.path = c.path)
    (hfree : PrefixFree copies) (h : Ready place root kept base copies d) :
    ∃ d', Action.each (restoreFile place root) (copies.map (·.record.toJson)) d =
        (.ok (copies.map fun c => c.fate (d.standing (kept ++ c.parts))), d') ∧
      d.Alters d'
        (fun n => ∃ c ∈ copies, c.Verifies (d.standing (kept ++ c.parts)) ∧ n = base ++ c.parts)
        (fun n => ∃ c ∈ copies, c.Verifies (d.standing (kept ++ c.parts)) ∧
          Above (base ++ c.parts) n) ∧
      ∀ c ∈ copies, ∀ content, d.standing (kept ++ c.parts) = .file content →
        Manifest.digest content = c.record.digest →
        d'.standing (base ++ c.parts) = .file content := by
  induction copies generalizing d with
  | nil => exact ⟨d, rfl, .refl .., nofun⟩
  | cons c copies ih =>
    have hready : c.Verifies (d.standing (kept ++ c.parts)) → d.Receives (root.join c.path) ∧
        kept ++ c.parts ≠ (Path.resolve d.here (root.join c.path)).parts := fun hverifies =>
      ⟨h.receives c List.mem_cons_self hverifies, fun heq => by
        rw [h.target c List.mem_cons_self] at heq
        exact h.apart c List.mem_cons_self hverifies c List.mem_cons_self (heq ▸ List.prefix_rfl)⟩
    obtain ⟨d₁, hfirst, halters, hfile⟩ := exists_restoreFile (hname c List.mem_cons_self)
      (h.saved c List.mem_cons_self) (h.no_directory c List.mem_cons_self) hready
    rw [h.target c List.mem_cons_self] at halters hfile
    have hsame : ∀ c' ∈ copies, d₁.standing (kept ++ c'.parts) = d.standing (kept ++ c'.parts) :=
      fun c' hc' => h.standing_eq halters (List.mem_cons_of_mem _ hc')
    have hfree' : PrefixFree copies := fun c' hc' c'' hc'' =>
      hfree c' (List.mem_cons_of_mem _ hc') c'' (List.mem_cons_of_mem _ hc'')
    obtain ⟨d₂, hrest, halters₂, hfiles⟩ :=
      ih (List.forall_mem_cons.1 hname).2 hfree' (h.tail halters hfree)
    rw [List.map_congr_left fun c' hc' => congrArg c'.fate (hsame c' hc')] at hrest
    have hfiles : ∀ c' ∈ copies, ∀ content, d.standing (kept ++ c'.parts) = .file content →
        Manifest.digest content = c'.record.digest →
        d₂.standing (base ++ c'.parts) = .file content := fun c' hc' content hcontent =>
      hfiles c' hc' content ((hsame c' hc').trans hcontent)
    refine ⟨d₂, ?_, .trans (halters.mono ?_ ?_) (halters₂.mono ?_ ?_), ?_⟩
    · rw [List.map_cons, List.map_cons, Action.each, Action.bind_of_ok hfirst,
        Action.bind_of_ok hrest]
      rfl
    · exact fun n hn => ⟨c, List.mem_cons_self, hn⟩
    · exact fun n hn => ⟨c, List.mem_cons_self, hn⟩
    · rintro n ⟨c', hc', hn⟩
      exact ⟨c', List.mem_cons_of_mem _ hc', hsame c' hc' ▸ hn⟩
    · rintro n ⟨c', hc', hn⟩
      exact ⟨c', List.mem_cons_of_mem _ hc', hsame c' hc' ▸ hn⟩
    · refine List.forall_mem_cons.2 ⟨fun content hcontent hdigest => ?_, hfiles⟩
      -- The file stays as it came, unless it is recorded again, with the same content.
      by_cases hagain : ∃ c' ∈ copies, c'.Verifies (d₁.standing (kept ++ c'.parts)) ∧
          base ++ c.parts = base ++ c'.parts
      · obtain ⟨c', hc', ⟨content', hcontent', hdigest'⟩, heq⟩ := hagain
        have hparts := List.append_cancel_left heq
        rw [hsame c' hc', ← hparts, hcontent, Standing.file.injEq] at hcontent'
        subst hcontent'
        rw [hparts] at hcontent ⊢
        exact hfiles c' hc' content hcontent hdigest'
      · exact (halters₂.file _ hagain _).2 (hfile content hcontent hdigest)

end Run

theorem summary_restored (paths : List String) : summary (paths.map .restored) = .ok paths := by
  have hproblems : (paths.map Fate.restored).filterMap Fate.problem? = [] := by
    simp [List.filterMap_map, Function.comp_def, Fate.problem?]
  have hrestored : (paths.map Fate.restored).filterMap Fate.restored? = paths := by
    simp [List.filterMap_map, Function.comp_def, Fate.restored?]
  rw [summary, hproblems, hrestored]

/-- Once the manifest is read, restoring goes from file to file. -/
theorem restore_of_records {backup root : Path} {into : Option Path} {manifest : Json}
    {records : List Json} {d : Disk} (hread : Manifest.read d backup = .ok manifest)
    (hdestination : destination into manifest = .ok root)
    (hrecords : recordsOf manifest = .ok records) :
    restore backup into d = (do
      let fates ← Action.each (restoreFile backup root) records
      Action.ask fun _ => summary fates : RestoreAction (List String)) d := by
  have hask : Action.ask (fun d => (Manifest.read d backup).mapError (RestoreError.ofFault backup))
      d = (.ok manifest, d) := by
    rw [Action.ask, hread]
    rfl
  rw [restore, Action.bind_of_ok hask, Action.bind_of_ok (shaped_eq_ok hdestination d),
    Action.bind_of_ok (shaped_eq_ok hrecords d)]

theorem restore_of_each {backup root : Path} {into : Option Path} {manifest : Json}
    {records : List Json} {fates : List Fate} {d d' : Disk}
    (hread : Manifest.read d backup = .ok manifest)
    (hdestination : destination into manifest = .ok root)
    (hrecords : recordsOf manifest = .ok records)
    (heach : Action.each (restoreFile backup root) records d = (.ok fates, d')) :
    restore backup into d = (summary fates, d') := by
  rw [restore_of_records hread hdestination hrecords, Action.bind_of_ok heach, Action.ask]

end Backup

end Deadwood
