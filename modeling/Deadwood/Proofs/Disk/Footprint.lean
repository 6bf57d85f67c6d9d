import Deadwood.Proofs.Disk.Making

/-!
How far changes reach. An alteration keeps all directories, makes some at names of one kind and
changes files at names of another; what stands as a file elsewhere reads as before
(`Alters.read_eq_ok`). An operation on one file keeps all directories and every other entry with its
mode (`keeps_write`, `keeps_rename`), which is an alteration that makes no directory
(`Keeps.alters`).
-/
namespace Deadwood.Disk

variable {d d' d'' : Disk} {p : Path} {names : List String} {content : Bytes}
  {files made : List String → Prop}

structure Alters (d d' : Disk) (files made : List String → Prop) : Prop where
  here : d'.here = d.here
  directory : ∀ n, d.standing n = .directory → d'.standing n = .directory
  made : ∀ n, d'.standing n = .directory → d.standing n = .directory ∨ made n
  file : ∀ n, ¬ files n → ∀ content, d'.standing n = .file content ↔ d.standing n = .file content

namespace Alters

theorem refl (d : Disk) (files made : List String → Prop) : d.Alters d files made :=
  ⟨rfl, fun _ h => h, fun _ => .inl, fun _ _ _ => Iff.rfl⟩

theorem trans (h : d.Alters d' files made) (h' : d'.Alters d'' files made) :
    d.Alters d'' files made where
  here := h'.here.trans h.here
  directory n hn := h'.directory n (h.directory n hn)
  made n hn := (h'.made n hn).elim (h.made n) .inr
  file n hn content := (h'.file n hn content).trans (h.file n hn content)

theorem mono {files' made' : List String → Prop} (h : d.Alters d' files made)
    (hfiles : ∀ n, files n → files' n) (hmade : ∀ n, made n → made' n) :
    d.Alters d' files' made' where
  here := h.here
  directory := h.directory
  made n hn := (h.made n hn).imp_right (hmade n)
  file n hn := h.file n (mt (hfiles n) hn)

theorem of_grows (h : d.Grows d' made) : d.Alters d' files made where
  here := h.here
  directory _ := h.directory
  made n hn := (h.standing n).imp (fun hsame => hsame.symm.trans hn) fun hnew => hnew.2.2
  file _ _ _ := h.file_iff

theorem of_becomes {s : Standing} (h : d.Becomes d' names s) (hold : d.standing names ≠ .directory)
    (hs : s ≠ .directory) (hnames : files names) : d.Alters d' files made where
  here := h.here
  directory _ := h.directory hold
  made n hn := by
    by_cases heq : n = names
    · rw [heq, h.self] at hn
      exact absurd hn hs
    · exact .inl ((h.other heq).symm.trans hn)
  file n hn _ := by
    have hne : n ≠ names := by
      rintro rfl
      exact hn hnames
    rw [h.other hne]

variable (h : d.Alters d' files made)

include h

theorem settle (hp : d.settle p = .ok names) : d'.settle p = .ok names :=
  settle_mono h.here h.directory hp

theorem leads {dir rel : List String} (hp : d.Leads p dir rel) : d'.Leads p dir rel :=
  hp.mono h.here h.directory

/-- What stands at other names stays. -/
theorem standing_eq (hfiles : ¬ files names) (hmade : ¬ made names) :
    d'.standing names = d.standing names := by
  cases hstanding : d.standing names with
  | directory => exact h.directory _ hstanding
  | file content => exact (h.file names hfiles content).2 hstanding
  | nothing =>
    cases hafter : d'.standing names with
    | nothing => rfl
    | directory =>
      rcases h.made _ hafter with hbefore | hnew
      · rw [hstanding] at hbefore
        cases hbefore
      · exact absurd hnew hmade
    | file content =>
      rw [(h.file names hfiles content).1 hafter] at hstanding
      cases hstanding

theorem read_eq_ok (hroot : d.standing [] = .directory)
    (hp : ¬ files (Path.resolve d.here p).parts) (hread : d.read p = .ok content) :
    d'.read p = .ok content := by
  obtain ⟨names, hsettle, hfile⟩ := Disk.read_eq_ok.1 hread
  rw [← parts_of_settle hroot hsettle] at hp
  exact Disk.read_eq_ok.2 ⟨names, h.settle hsettle, (h.file names hp content).2 hfile⟩

end Alters

/-- Directories that are made on a way down are made below the directory it starts from. -/
theorem Leads.alters_of_grows {dir rel : List String} (h : d.Leads p dir rel)
    (hd : d.Grows d' (d.OnWay p)) :
    d.Alters d' files fun n => ∃ init, init <+: rel ∧ n = dir ++ init where
  here := hd.here
  directory _ := hd.directory
  made n hn := by
    rcases hd.standing n with hsame | ⟨-, -, hway⟩
    · exact .inl (hsame ▸ hn)
    · exact h.onWay_cases hway
  file _ _ _ := hd.file_iff

theorem alters_setMode {mode : Nat} (h : d.setMode p mode = .ok d') : d.Alters d' files made := by
  obtain ⟨hhere, hsame⟩ := standing_of_setMode h
  exact ⟨hhere, fun n hn => (hsame n).trans hn, fun n hn => .inl ((hsame n).symm.trans hn),
    fun n _ _ => by rw [hsame]⟩

/-! ## Changes to files only -/

/-- The same directories and, but for some names, the same entries with their modes and contents. -/
structure Keeps (d d' : Disk) (files : List String → Prop) : Prop where
  here : d'.here = d.here
  directory : ∀ n, d'.standing n = .directory ↔ d.standing n = .directory
  own : ∀ n, ¬ files n → d'.own n = d.own n

namespace Keeps

theorem refl (d : Disk) (files : List String → Prop) : d.Keeps d files :=
  ⟨rfl, fun _ => Iff.rfl, fun _ _ => rfl⟩

theorem trans (h : d.Keeps d' files) (h' : d'.Keeps d'' files) : d.Keeps d'' files where
  here := h'.here.trans h.here
  directory n := (h'.directory n).trans (h.directory n)
  own n hn := (h'.own n hn).trans (h.own n hn)

theorem mono {files' : List String → Prop} (h : d.Keeps d' files)
    (hfiles : ∀ n, files n → files' n) : d.Keeps d' files' where
  here := h.here
  directory := h.directory
  own n hn := h.own n (mt (hfiles n) hn)

theorem standing (h : d.Keeps d' files) (hnames : ¬ files names) :
    d'.standing names = d.standing names := by
  rw [standing_of_own, h.own names hnames, ← standing_of_own]

theorem root (h : d.Keeps d' files) (hroot : d.standing [] = .directory) :
    d'.standing [] = .directory :=
  (h.directory []).2 hroot

theorem settle (h : d.Keeps d' files) (hp : d.settle p = .ok names) : d'.settle p = .ok names :=
  settle_mono h.here (fun n => (h.directory n).2) hp

theorem alters (h : d.Keeps d' files) : d.Alters d' files made where
  here := h.here
  directory n := (h.directory n).2
  made n hn := .inl ((h.directory n).1 hn)
  file n hn _ := by rw [h.standing hn]

end Keeps

section Keeping

variable (hroot : d.standing [] = .directory)

include hroot

theorem keeps_put (hp : d.settle p = .ok names) (hold : d.standing names ≠ .directory)
    {e : Option Entry} (hleaf : ∀ below rest, e.bind (·.get? (below :: rest)) = none)
    (hnew : (e.map Entry.standing).getD .nothing ≠ .directory) :
    d.Keeps (d.put names e) (· = names) where
  here := rfl
  directory n := by
    have hbecomes := becomes_put hroot hp hold hleaf
    by_cases hn : n = names
    · rw [hn, hbecomes.self]
      exact ⟨fun h => absurd h hnew, fun h => absurd h hold⟩
    · rw [hbecomes.other hn]
  own n hn := by
    obtain ⟨dir, name, rfl, hdir⟩ := exists_parent_of_settle hroot hp hold
    refine own_put hdir (fun below rest => ?_) hn
    have hnothing := nothing_below hold (List.cons_ne_nil below rest)
    rw [standing_eq_nothing_iff, at?_append] at hnothing
    rw [hleaf, hnothing]

theorem keeps_write (h : d.write p content = .ok d') :
    d.Keeps d' (· = (Path.resolve d.here p).parts) := by
  obtain ⟨names, hp, hold⟩ := settle_of_write h
  rw [← parts_of_settle hroot hp]
  obtain ⟨names', hp', h⟩ := bind_eq_ok.1 h
  rw [hp, Except.ok.injEq] at hp'
  subst hp'
  split at h
  · cases h
  · cases h
    exact keeps_put hroot hp hold (fun _ _ => rfl) (Standing.file_ne_directory content)
  · cases h
    exact keeps_put hroot hp hold (fun _ _ => rfl) (Standing.file_ne_directory content)

theorem keeps_remove (h : d.remove p = .ok d') :
    d.Keeps d' (· = (Path.resolve d.here p).parts) := by
  obtain ⟨names, hp, h⟩ := bind_eq_ok.1 h
  rw [← parts_of_settle hroot hp]
  split at h
  · next mode content hat =>
    cases h
    have hold : d.standing names ≠ .directory :=
      ne_directory_of_file (standing_eq_file_iff.2 ⟨mode, hat⟩)
    exact keeps_put hroot hp hold (fun _ _ => rfl) Standing.nothing_ne_directory
  · cases h
  · cases h

theorem keeps_setMode {mode : Nat} (h : d.setMode p mode = .ok d') :
    d.Keeps d' (· = (Path.resolve d.here p).parts) := by
  obtain ⟨hhere, hstanding⟩ := standing_of_setMode h
  refine ⟨hhere, fun n => by rw [hstanding], fun n hn => ?_⟩
  obtain ⟨e, hentry, h⟩ := bind_eq_ok.1 h
  obtain ⟨names, hp, h⟩ := bind_eq_ok.1 h
  cases h
  rw [← parts_of_settle hroot hp] at hn
  have hat : d.at? names = some e := at?_of_entry hp hentry
  rcases List.eq_nil_or_concat' names with rfl | ⟨dir, name, rfl⟩
  · obtain ⟨below, rest, rfl⟩ := List.exists_cons_of_ne_nil hn
    rw [at?, Entry.get?_nil, Option.some.injEq] at hat
    subst hat
    exact congrArg (·.map Entry.own) (Entry.get?_withMode_below mode d.root below rest)
  · obtain ⟨m, entries, hdir⟩ := Entry.get?_directory_above hat
    refine own_put (standing_eq_directory_iff.2 ⟨m, entries, hdir⟩) (fun below rest => ?_) hn
    rw [hat, Option.bind_some, Option.bind_some, Entry.get?_withMode_below]

theorem keeps_rename {source target : Path} (h : d.rename source target = .ok d')
    (hfile : d.standing (Path.resolve d.here source).parts ≠ .directory) :
    d.Keeps d' fun n => n = (Path.resolve d.here target).parts ∨
      n = (Path.resolve d.here source).parts := by
  obtain ⟨old, names, hsource, -, htarget, hnames⟩ := settle_of_rename h
  rw [← parts_of_settle hroot hsource] at hfile ⊢
  rw [← parts_of_settle hroot htarget]
  obtain ⟨e, hentry, h⟩ := bind_eq_ok.1 h
  have hat : d.at? old = some e := at?_of_entry hsource hentry
  have hmoved : (d.put old none).put names (some e) = d' := by
    simp only [hsource, htarget, bind, Except.bind] at h
    split at h
    · cases h
    · exact Except.ok.inj h
  have hgone : d.Keeps (d.put old none) (· = old) :=
    keeps_put hroot hsource hfile (fun _ _ => rfl) Standing.nothing_ne_directory
  have hnew : e.standing ≠ .directory := by rwa [standing, hat] at hfile
  have hplaced : (d.put old none).Keeps d' (· = names) := by
    rw [← hmoved]
    exact keeps_put (hgone.root hroot) (hgone.settle htarget) (mt (hgone.directory names).1 hnames)
      (fun _ _ => Entry.get?_cons_of_not_directory hnew _ _) hnew
  exact (hgone.mono fun _ => .inr).trans (hplaced.mono fun _ => .inl)

theorem alters_write (h : d.write p content = .ok d')
    (hfiles : files (Path.resolve d.here p).parts) : d.Alters d' files made := by
  have hkeeps := keeps_write hroot h
  refine (hkeeps.mono ?_).alters
  rintro n rfl
  exact hfiles

theorem alters_rename {source target : Path} (h : d.rename source target = .ok d')
    (hsource : d.standing (Path.resolve d.here source).parts ≠ .directory)
    (hfiles : files (Path.resolve d.here source).parts)
    (hfiles' : files (Path.resolve d.here target).parts) : d.Alters d' files made := by
  have hkeeps := keeps_rename hroot h hsource
  refine (hkeeps.mono ?_).alters
  rintro n (rfl | rfl)
  · exact hfiles'
  · exact hfiles

end Keeping

end Deadwood.Disk
