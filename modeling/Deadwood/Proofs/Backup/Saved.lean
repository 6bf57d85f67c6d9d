import Deadwood.Proofs.Backup.Holding
import Deadwood.Proofs.Backup.Place

/-!
What a backup holds. Its directory fills file by file: each step adds a file and leaves those that
are held already (`Fills.keep`), so that in the end it holds a copy of every source and the manifest
of them all, and no file outside it has changed (`exists_taken_of_create`).
-/
namespace Deadwood.Backup

/-! ## What is held on the way -/

/-- A directory that was made in its place and has been filled since; no file outside it changed. -/
structure Fills (before : Disk) (place : Path) (held : List Copy) (d : Disk) : Prop
    extends Holds place (Path.resolve before.here place).parts held d where
  within : before.Alters d ((Path.resolve before.here place).parts <+: ·) fun _ => True

/-- Directly in a directory, under one of some names. -/
def Among (kept some : List String) (names : List String) : Prop :=
  ∃ name ∈ some, names = kept ++ [name]

theorem not_among {kept some : List String} {c : Copy} (h : ∀ name ∈ some, c.parts ≠ [name]) :
    ¬ Among kept some (kept ++ c.parts) :=
  fun ⟨name, hname, heq⟩ => h name hname (List.append_cancel_left heq)

theorem fills_of_makeDirectories {before d : Disk} {place : Path}
    (hroot : before.standing [] = .directory) (h : before.makeDirectories place false = .ok d) :
    Fills before place [] d := by
  obtain ⟨hgrows, hdirectory, -⟩ := Disk.made_of_makeDirectories hroot h
  obtain ⟨names, hsettle, hstanding⟩ := Disk.isDirectory_iff.1 hdirectory
  have hnames := Disk.parts_of_settle (hgrows.directory hroot) hsettle
  rw [hgrows.here] at hnames
  subst hnames
  exact ⟨⟨hsettle, hstanding, nofun, nofun⟩, .of_grows (hgrows.mono fun _ _ => trivial)⟩

namespace Fills

variable {before d d' : Disk} {place root : Path} {held held' : List Copy} {c : Copy}
  (h : Fills before place held d)

include h

theorem less (hsub : held' ⊆ held) : Fills before place held' d := ⟨h.toHolds.mono hsub, h.within⟩

/-- Changes in the directory leave those files that they leave. -/
theorem keep {files made : List String → Prop} (hd : d.Alters d' files made)
    (hfiles : ∀ n, files n → (Path.resolve before.here place).parts <+: n)
    (hfree : ∀ c ∈ held, ¬ files ((Path.resolve before.here place).parts ++ c.parts)) :
    Fills before place held d' :=
  ⟨h.toHolds.alters hd hfree, h.within.trans (hd.mono hfiles fun _ _ => trivial)⟩

theorem add (hnames : ∀ name ∈ c.parts, name ≠ "..")
    (hread : d.read (place.join c.path) = .ok c.content) : Fills before place (c :: held) d :=
  ⟨h.toHolds.cons hnames hread, h.within⟩

/-- A source that is saved is held from then on. -/
theorem save {f : SavedFile} (hresolved : Path.resolve before.here root = root)
    (hnothing : before.standing (Path.resolve before.here place).parts = .nothing)
    (hheld : ∀ c ∈ held, c.Of before root) (hc : c.Of before root)
    (hsave : save root place (root.join c.path) d = (.ok f, d')) :
    f = c.record ∧ Disk.Plain (root.join c.path) ∧ Fills before place (c :: held) d' := by
  have hbelow : below root (root.join c.path) = c.parts := by
    rw [below, Path.join, if_neg (by simp [Path.isAbsolute, Copy.path]), Path.relativeTo?_join]
    rfl
  have htarget : saved root place (root.join c.path) = place.join c.path := by
    rw [saved, hbelow]
    rfl
  unfold Backup.save at hsave
  rw [htarget, hbelow] at hsave
  obtain ⟨_, d₁, hmake, hsave⟩ := Disk.Action.bind_eq_ok hsave
  obtain ⟨_, d₂, hcopy, hsave⟩ := Disk.Action.bind_eq_ok hsave
  obtain ⟨content, _, hask, hsave⟩ := Disk.Action.bind_eq_ok hsave
  cases hsave
  obtain ⟨hread, rfl⟩ := Disk.Action.ask_eq_ok.1 hask
  rw [Disk.Action.change_eq_ok] at hmake hcopy
  have hmade : d.Alters d₁ (fun _ => False) fun _ => True :=
    .of_grows ((Disk.made_of_makeDirectories h.root_directory hmake).1.mono fun _ _ => trivial)
  have h₁ : Fills before place held d₁ := h.keep hmade (fun _ => False.elim) fun _ _ => id
  obtain ⟨names, hsource, hsettle, hnames, hbecomes⟩ :=
    Disk.becomes_of_copy_of_read h₁.root_directory hcopy hread
  obtain ⟨source, hsource, hfile⟩ := Disk.read_eq_ok.1 hsource
  have hplain : Disk.Plain (root.join c.path) := by
    refine Disk.plain_of_settle hsource (by rw [← hresolved]; rfl) (List.forall_mem_append.2 ?_)
    exact ⟨fun part hpart => Path.ne_up_of_mem_resolve (hresolved ▸ hpart), hc.ne_up⟩
  -- What is read is the source as it was before the backup.
  have hcontent : content = c.content := by
    have hparts := Disk.parts_of_settle h₁.root_directory hsource
    rw [Copy.path, Path.parts_resolve_join _ _ hc.ne_up, h₁.within.here, hresolved] at hparts
    rw [hparts, h₁.within.file _ (hc.not_isPrefix hnothing), hc.standing] at hfile
    exact (Standing.file.inj hfile).symm
  have hparts := (Disk.parts_of_settle h₁.root_directory hsettle).trans (h₁.parts_join hc.ne_up)
  subst hcontent hparts
  have hcopied : d₁.Alters d₂ (· = (Path.resolve before.here place).parts ++ c.parts)
      fun _ => False := .of_becomes hbecomes hnames (Standing.file_ne_directory _) rfl
  -- A source that is saved twice is written over with the same content.
  have hothers : Fills before place (held.filter (·.parts ≠ c.parts)) d₂ :=
    (h₁.less (List.filter_subset_self _)).keep hcopied (fun n hn => ⟨c.parts, hn.symm⟩) fun c' hc' heq => by
      simpa [List.append_cancel_left heq] using (List.mem_filter.1 hc').2
  refine ⟨rfl, hplain, (hothers.add hc.ne_up hread).less fun c' hc' => ?_⟩
  by_cases hsame : c'.parts = c.parts
  · have heq : c' = c := (List.mem_cons.1 hc').elim id fun hc' => (hheld c' hc').eq hc hsame
    exact heq ▸ List.mem_cons_self
  · have hmem : c' ∈ held := (List.mem_cons.1 hc').resolve_left fun heq => hsame (heq ▸ rfl)
    exact List.mem_cons_of_mem _ (List.mem_filter.2 ⟨hmem, by simpa using hsame⟩)

theorem each {copies : List Copy} {files : List SavedFile}
    (hresolved : Path.resolve before.here root = root)
    (hnothing : before.standing (Path.resolve before.here place).parts = .nothing)
    (hheld : ∀ c ∈ held, c.Of before root) (hcopies : ∀ c ∈ copies, c.Of before root)
    (heach : Disk.Action.each (Backup.save root place) (copies.map (root.join ·.path)) d =
      (.ok files, d')) :
    files = copies.map Copy.record ∧ (∀ c ∈ copies, Disk.Plain (root.join c.path)) ∧
      Fills before place (copies ++ held) d' := by
  induction copies generalizing d held files with
  | nil =>
    cases heach
    exact ⟨rfl, nofun, h⟩
  | cons c copies ih =>
    rw [List.forall_mem_cons] at hcopies
    rw [List.map_cons, Disk.Action.each] at heach
    obtain ⟨f, d₁, hsave, heach⟩ := Disk.Action.bind_eq_ok heach
    obtain ⟨rest, d₂, hrest, heach⟩ := Disk.Action.bind_eq_ok heach
    cases heach
    obtain ⟨rfl, hplain, h₁⟩ := h.save hresolved hnothing hheld hcopies.1 hsave
    obtain ⟨rfl, hplains, h₂⟩ := ih h₁ (List.forall_mem_cons.2 ⟨hcopies.1, hheld⟩) hcopies.2 hrest
    exact ⟨rfl, List.forall_mem_cons.2 ⟨hplain, hplains⟩, h₂.less (by simp)⟩

theorem parts_child {name : String} (hname : name ≠ "..") :
    (Path.resolve d.here (place.child name)).parts =
      (Path.resolve before.here place).parts ++ [name] :=
  h.parts_join (by simpa using hname)

/-- A file written beside those that are held is held with them. -/
theorem write {name : String} {content : Bytes} (hname : name ≠ "..")
    (hfree : ∀ c ∈ held, c.parts ≠ [name])
    (hwrite : d.write (place.child name) content = .ok d') :
    Fills before place (⟨[name], content⟩ :: held) d' := by
  have halters : d.Alters d' (Among (Path.resolve before.here place).parts [name]) fun _ => False :=
    Disk.alters_write h.root_directory hwrite ⟨name, by simp, h.parts_child hname⟩
  refine (h.keep halters (fun n ⟨name, _, hn⟩ => ⟨[name], hn.symm⟩) fun c hc => ?_).add
    (by simpa using hname) (Disk.read_of_write h.root_directory hwrite)
  exact not_among (by simpa using hfree c hc)

/-- A file that is moved within the directory is held under its new name. -/
theorem rename {old new : String} {content : Bytes} (hold : old ≠ "..") (hnew : new ≠ "..")
    (hfree : ∀ c ∈ held, c.parts ≠ [old] ∧ c.parts ≠ [new])
    (hread : d.read (place.child old) = .ok content)
    (hrename : d.rename (place.child old) (place.child new) = .ok d') :
    Fills before place (⟨[new], content⟩ :: held) d' := by
  have hno : d.standing (Path.resolve d.here (place.child old)).parts ≠ .directory := by
    obtain ⟨names, hsettle, hfile⟩ := Disk.read_eq_ok.1 hread
    rw [← Disk.parts_of_settle h.root_directory hsettle]
    exact Disk.ne_directory_of_file hfile
  have halters : d.Alters d' (Among (Path.resolve before.here place).parts [old, new])
      fun _ => False :=
    Disk.alters_rename h.root_directory hrename hno ⟨old, by simp, h.parts_child hold⟩
      ⟨new, by simp, h.parts_child hnew⟩
  refine (h.keep halters (fun n ⟨name, _, hn⟩ => ⟨[name], hn.symm⟩) fun c hc => ?_).add
    (by simpa using hnew) (Disk.read_of_rename h.root_directory hrename hread)
  exact not_among (by simpa using hfree c hc)

theorem manifest {m : Manifest}
    (hfree : ∀ c ∈ held, c.parts ≠ ["BACKUP_INFO.tmp"] ∧ c.parts ≠ [Manifest.fileName])
    {u : Unit} (hwrite : m.write place d = (.ok u, d')) :
    m.isCountable = true ∧ Fills before place (⟨[Manifest.fileName], m.content⟩ :: held) d' := by
  unfold Manifest.write at hwrite
  split at hwrite
  · next hcountable =>
    obtain ⟨_, d₁, hwritten, hmoved⟩ := Disk.Action.bind_eq_ok hwrite
    rw [Disk.Action.change_eq_ok] at hwritten hmoved
    have h₁ : Fills before place held d₁ :=
      (h.write (by decide) (fun c hc => (hfree c hc).1) hwritten).less (List.subset_cons_self _ _)
    exact ⟨hcountable, h₁.rename (by decide) (by decide) hfree
      (Disk.read_of_write h.root_directory hwritten) hmoved⟩
  · obtain ⟨_, d₁, -, hfail⟩ := Disk.Action.bind_eq_ok hwrite
    cases hfail

theorem script {here : Path} (hfree : ∀ c ∈ held, c.parts ≠ [scriptName]) {u : Unit}
    (hwrite : writeScript here root place d = (.ok u, d')) : Fills before place held d' := by
  obtain ⟨_, d₁, hwritten, hmode⟩ := Disk.Action.bind_eq_ok hwrite
  rw [Disk.Action.change_eq_ok] at hwritten hmode
  have h₁ : Fills before place held d₁ :=
    (h.write (by decide) hfree hwritten).less (List.subset_cons_self _ _)
  have halters : d₁.Alters d' (fun _ => False) fun _ => False := Disk.alters_setMode hmode
  exact h₁.keep halters (fun _ => False.elim) fun _ _ => id

end Fills

/-! ## What is held in the end -/

/-- The manifest of the copies of a backup. -/
def manifestOf (m : Machine) (root : Path) (copies : List Copy) : Manifest :=
  .ofFiles m.now.text (Path.resolve m.disk.here root).toString (copies.map Copy.record)

/-- What there is of a backup that was made: copies of the files below its root, in order. -/
structure Taken (dir root : Path) (m : Machine) (info : BackupInfo) (copies : List Copy) :
    Prop where
  sources : m.find (Path.resolve m.disk.here root) (discovery dir) =
    copies.map ((Path.resolve m.disk.here root).join ·.path)
  of : ∀ c ∈ copies, c.Of m.disk (Path.resolve m.disk.here root)
  plain : ∀ c ∈ copies, Disk.Plain ((Path.resolve m.disk.here root).join c.path)
  info : info = Backup.info m (place m dir (Path.resolve m.disk.here root))
    (copies.map Copy.record)
  countable : (manifestOf m root copies).isCountable = true
  fills : Fills m.disk (place m dir (Path.resolve m.disk.here root))
    (⟨[Manifest.fileName], (manifestOf m root copies).content⟩ :: copies)
    (create dir root m).2.disk

/-- No source is called like a file that the backup adds to the copies. -/
theorem parts_ne_of_accepts {dir : Path} {parts : List String}
    (h : (discovery dir).accepts (Discovery.below parts) = true) :
    parts ≠ ["BACKUP_INFO.tmp"] ∧ parts ≠ [Manifest.fileName] ∧ parts ≠ [scriptName] := by
  have hpattern : patterns.any (Discovery.matchesPattern (Discovery.below parts)) = true := by
    rw [Discovery.accepts, Bool.and_eq_true] at h
    exact h.2
  have hown : ∀ name ∈ ["BACKUP_INFO.tmp", Manifest.fileName, scriptName],
      patterns.any (Discovery.matchesPattern (Discovery.below [name])) = false := by
    decide +kernel
  refine ⟨?_, ?_, ?_⟩
  all_goals
    rintro rfl
    rw [hown _ (by simp)] at hpattern
    cases hpattern

theorem exists_taken_of_create {dir root : Path} {m : Machine} {info : BackupInfo}
    (hsound : m.disk.Sound) (h : (create dir root m).1 = .ok info) :
    ∃ copies, Taken dir root m info copies := by
  have hresolved := Path.resolve_resolve m.disk.here root
  obtain ⟨copies, hsources, hcopies⟩ := exists_copies hsound hresolved (discovery dir)
  have hof : ∀ c ∈ copies, c.Of m.disk (Path.resolve m.disk.here root) :=
    fun c hc => (hcopies c hc).1
  have hown := fun c hc => parts_ne_of_accepts (hcopies c hc).2
  obtain ⟨files, hfill, hinfo⟩ := fill_of_create h
  have hnothing : m.disk.standing (Path.resolve m.disk.here
      (place m dir (Path.resolve m.disk.here root))).parts = .nothing :=
    nothing_at_place hsound.root h
  rw [show m.find (Path.resolve m.disk.here root) (discovery dir) = _ from hsources] at hfill
  obtain ⟨_, d₀, hmake, hfill⟩ := Disk.Action.bind_eq_ok hfill
  obtain ⟨saved, d₁, heach, hfill⟩ := Disk.Action.bind_eq_ok hfill
  obtain ⟨_, d₂, hmanifest, hfill⟩ := Disk.Action.bind_eq_ok hfill
  obtain ⟨_, d₃, hscript, hfill⟩ := Disk.Action.bind_eq_ok hfill
  obtain ⟨rfl, hlast⟩ : saved = files ∧ d₃ = (create dir root m).2.disk := by
    cases hfill
    exact ⟨rfl, rfl⟩
  rw [Disk.Action.change_eq_ok] at hmake
  have h₀ := fills_of_makeDirectories hsound.root hmake
  obtain ⟨rfl, hplain, h₁⟩ := h₀.each hresolved hnothing nofun hof heach
  rw [List.append_nil] at h₁
  obtain ⟨hcountable, h₂⟩ := h₁.manifest (fun c hc => ⟨(hown c hc).1, (hown c hc).2.1⟩) hmanifest
  have hplace : [Manifest.fileName] ≠ [scriptName] := by decide
  have h₃ := h₂.script (List.forall_mem_cons.2 ⟨hplace, fun c hc => (hown c hc).2.2⟩) hscript
  exact ⟨copies, hsources, hof, hplain, hinfo, hcountable, hlast ▸ h₃⟩

end Deadwood.Backup
