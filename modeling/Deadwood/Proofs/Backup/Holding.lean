import Deadwood.Backup.Create
import Deadwood.Proofs.Disk.Footprint
import Deadwood.Proofs.Disk.Sound

/-!
Files held in a directory. They stay as long as none of them changes (`Holds.alters`), and they are
held on every disk where the same directory stands in the same place (`Holds.of_lookup?`).
-/
namespace Deadwood.Backup

/-- A file by its parts below some directory and its content. -/
structure Copy where
  parts : List String
  content : Bytes
  deriving Inhabited

namespace Copy

def path (c : Copy) : Path := ⟨0, c.parts⟩

def record (c : Copy) : SavedFile := ⟨"/".intercalate c.parts, Manifest.digest c.content⟩

/-- The file stands below a directory of a disk. -/
structure Of (c : Copy) (d : Disk) (root : Path) : Prop where
  names : ∀ name ∈ c.parts, Entry.IsName name
  standing : d.standing (root.parts ++ c.parts) = .file c.content

variable {c c' : Copy} {d : Disk} {root : Path}

theorem Of.ne_up (h : c.Of d root) : ∀ name ∈ c.parts, name ≠ ".." :=
  fun name hname => (h.names name hname).2

theorem Of.eq (h : c.Of d root) (h' : c'.Of d root) (hparts : c.parts = c'.parts) : c = c' := by
  obtain ⟨parts, content⟩ := c
  obtain ⟨parts', content'⟩ := c'
  obtain rfl : parts = parts' := hparts
  obtain rfl : content = content' := Standing.file.inj (h.standing.symm.trans h'.standing)
  rfl

theorem Of.eq_of_isPrefix (h : c.Of d root) (h' : c'.Of d root)
    (hbelow : root.parts ++ c.parts <+: root.parts ++ c'.parts) :
    root.parts ++ c.parts = root.parts ++ c'.parts := by
  obtain ⟨rest, hrest⟩ := hbelow
  by_cases hnil : rest = []
  · rwa [hnil, List.append_nil] at hrest
  · have hdirectory := Disk.directory_above_file (hrest ▸ h'.standing) hnil
    exact absurd hdirectory (Disk.ne_directory_of_file h.standing)

/-- What stood before a directory was made does not stand in it. -/
theorem Of.not_isPrefix (h : c.Of d root) {kept : List String} (hkept : d.standing kept = .nothing) :
    ¬ kept <+: root.parts ++ c.parts := fun hprefix =>
  Disk.ne_nothing_of_isPrefix (Disk.ne_nothing_of_file h.standing) hprefix hkept

theorem Of.ofString_record (h : c.Of d root) : .ofString c.record.path = c.path :=
  Path.ofString_intercalate fun name hname => (h.names name hname).1

end Copy

theorem exists_copies {d : Disk} (hsound : d.Sound) {root : Path}
    (hroot : Path.resolve d.here root = root) (discovery : Discovery) :
    ∃ copies : List Copy, d.find root discovery = copies.map (root.join ·.path) ∧
      ∀ c ∈ copies, c.Of d root ∧ discovery.accepts (Discovery.below c.parts) = true := by
  have hfound : ∀ q ∈ d.find root discovery, ∃ c : Copy, root.join c.path = q ∧
      c.Of d root ∧ discovery.accepts (Discovery.below c.parts) = true := by
    intro q hq
    obtain ⟨rel, content, rfl, hnames, hfile, haccepts⟩ := Disk.exists_file_of_mem_find hsound hq
    rw [hroot] at hfile ⊢
    exact ⟨⟨rel, content⟩, rfl, ⟨hnames, hfile⟩, haccepts⟩
  choose! copy hpath hof haccepts using hfound
  refine ⟨(d.find root discovery).map copy, ?_, ?_⟩
  · rw [List.map_map]
    exact ((List.map_congr_left hpath).trans (List.map_id _)).symm
  · rw [List.forall_mem_map]
    exact fun q hq => ⟨hof q hq, haccepts q hq⟩

/-- A place leads to a directory in which copies of files can be read. -/
structure Holds (place : Path) (kept : List String) (held : List Copy) (d : Disk) : Prop where
  settle : d.settle place = .ok kept
  directory : d.standing kept = .directory
  ne_up : ∀ c ∈ held, ∀ name ∈ c.parts, name ≠ ".."
  read : ∀ c ∈ held, d.read (place.join c.path) = .ok c.content

namespace Holds

variable {place : Path} {kept : List String} {held held' : List Copy} {d d' later : Disk}
  (h : Holds place kept held d)

include h

theorem root_directory : d.standing [] = .directory :=
  Disk.directory_of_isPrefix h.directory List.nil_prefix

theorem parts_join {parts : List String} (hparts : ∀ name ∈ parts, name ≠ "..") :
    (Path.resolve d.here (place.join ⟨0, parts⟩)).parts = kept ++ parts := by
  rw [Path.parts_resolve_join _ _ hparts, ← Disk.parts_of_settle h.root_directory h.settle]

theorem leads {c : Copy} (hc : c ∈ held) : d.Leads (place.join c.path) kept c.parts := by
  obtain ⟨names, hsettle, -⟩ := Disk.read_eq_ok.1 (h.read c hc)
  exact Disk.leads_join h.settle h.directory hsettle (h.ne_up c hc)

theorem standing {c : Copy} (hc : c ∈ held) : d.standing (kept ++ c.parts) = .file c.content := by
  obtain ⟨names, hsettle, hfile⟩ := Disk.read_eq_ok.1 (h.read c hc)
  rwa [Disk.parts_of_settle h.root_directory hsettle, (h.leads hc).parts_resolve] at hfile

theorem mono (hsub : held' ⊆ held) : Holds place kept held' d :=
  ⟨h.settle, h.directory, fun c hc => h.ne_up c (hsub hc), fun c hc => h.read c (hsub hc)⟩

/-- What is held stays, if the files that change are others. -/
theorem alters {files made : List String → Prop} (hd : d.Alters d' files made)
    (hfree : ∀ c ∈ held, ¬ files (kept ++ c.parts)) : Holds place kept held d' where
  settle := hd.settle h.settle
  directory := hd.directory _ h.directory
  ne_up := h.ne_up
  read c hc := by
    refine hd.read_eq_ok h.root_directory ?_ (h.read c hc)
    rw [Copy.path, h.parts_join (h.ne_up c hc)]
    exact hfree c hc

theorem cons {c : Copy} (hnames : ∀ name ∈ c.parts, name ≠ "..")
    (hread : d.read (place.join c.path) = .ok c.content) : Holds place kept (c :: held) d :=
  ⟨h.settle, h.directory, List.forall_mem_cons.2 ⟨hnames, h.ne_up⟩,
    List.forall_mem_cons.2 ⟨hread, h.read⟩⟩

/-- The same directory stands in the same place of another disk. -/
theorem same_of_lookup? (hplace : place.isAbsolute = true)
    (hsame : later.lookup? place = d.lookup? place) :
    later.settle place = .ok kept ∧ later.at? kept = d.at? kept := by
  obtain ⟨mode, entries, hat⟩ := Disk.standing_eq_directory_iff.1 h.directory
  have hlookup : d.lookup? place = some (.directory mode entries) :=
    Disk.lookup?_eq_some.2 ⟨kept, h.settle, hat⟩
  obtain ⟨names, hsettle, hat'⟩ := Disk.lookup?_eq_some.1 (hsame.trans hlookup)
  have hroot' : later.standing [] = .directory := Disk.directory_of_isPrefix
    (Disk.standing_eq_directory_iff.2 ⟨mode, entries, hat'⟩) List.nil_prefix
  have hnames : names = kept := by
    rw [Disk.parts_of_settle hroot' hsettle, Disk.parts_of_settle h.root_directory h.settle,
      Path.resolve_of_isAbsolute hplace later.here d.here]
  subst hnames
  exact ⟨hsettle, hat'.trans hat.symm⟩

theorem of_lookup? (hplace : place.isAbsolute = true)
    (hsame : later.lookup? place = d.lookup? place) : Holds place kept held later where
  settle := (h.same_of_lookup? hplace hsame).1
  directory := by
    rw [Disk.standing, (h.same_of_lookup? hplace hsame).2]
    exact h.directory
  ne_up := h.ne_up
  read c hc := by
    obtain ⟨hkept, hat⟩ := h.same_of_lookup? hplace hsame
    have hdirectory : later.standing kept = .directory := by
      rw [Disk.standing, hat]
      exact h.directory
    obtain ⟨names, hsettle, -⟩ := Disk.read_eq_ok.1 (h.read c hc)
    -- The two disks may differ on the way to the directory, but not below it.
    exact (Disk.leads_join hkept hdirectory hsettle (h.ne_up c hc)).read
      ((Disk.standing_append_of_at? hat c.parts).trans (h.standing hc))

end Holds

end Deadwood.Backup
