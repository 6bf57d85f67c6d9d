import Deadwood.Files.Memory
import Deadwood.Proofs.Disk.Sound
import Deadwood.Proofs.Sorting

/-!
Finding as filtering. A directory is passed over only if all that lies below it is ignored, so what
the walk finds is what a filter leaves of all files, in order (`find_eq_filter`), and the same files
held in memory are found the same way.
-/
namespace Deadwood

namespace Entry

variable {enters : String → Bool} {above : List String} {e : Entry}

theorem mem_pathsAll_of_get? {entries : List (String × Entry)} {name : String}
    {path : List String} (hchild : Keyed.get? entries name = some e)
    (henters : e.isDirectory = true → enters name = true)
    (h : path ∈ paths enters (above ++ [name]) e) : path ∈ pathsAll enters above entries := by
  induction entries with
  | nil => cases hchild
  | cons pair rest ih =>
    obtain ⟨first, e'⟩ := pair
    rw [pathsAll, List.mem_append]
    rw [Keyed.get?_cons] at hchild
    split at hchild
    · next hname =>
      cases hchild
      subst hname
      have hentered : ¬ (e.isDirectory && ! enters first) = true := by simpa using henters
      rw [if_neg hentered]
      exact .inl h
    · exact .inr (ih hchild)

/-- A file is listed if every directory on the way to it is entered. -/
theorem mem_paths_of_get? (above : List String) {rel : List String} {mode : Nat} {content : Bytes}
    (h : e.get? rel = some (.file mode content))
    (henters : ∀ name ∈ rel.dropLast, enters name = true) :
    above ++ rel ∈ paths enters above e := by
  induction rel generalizing e above with
  | nil =>
    rw [get?_nil, Option.some.injEq] at h
    rw [h, List.append_nil, paths, List.mem_singleton]
  | cons name rest ih =>
    obtain ⟨m, entries, c, rfl, hchild, hrest⟩ := exists_directory_of_get? h
    have hbelow : ∀ n ∈ rest.dropLast, enters n = true := by
      intro n hn
      cases rest with
      | nil => cases hn
      | cons => exact henters n (List.mem_cons_of_mem _ hn)
    rw [paths, List.append_cons]
    refine mem_pathsAll_of_get? hchild (fun hdirectory => henters name ?_) (ih _ hrest hbelow)
    cases rest with
    | nil =>
      rw [get?_nil, Option.some.injEq] at hrest
      rw [hrest] at hdirectory
      cases hdirectory
    | cons => exact List.mem_cons_self

mutual
theorem nodup_paths {enters : String → Bool} {above : List String} {e : Entry}
    (he : e.isSound = true) : (paths enters above e).Nodup := by
  cases e with
  | file => exact List.nodup_singleton _
  | directory mode entries => exact nodup_pathsAll he

theorem nodup_pathsAll {enters : String → Bool} {above : List String}
    {entries : List (String × Entry)} (he : areSound entries = true) :
    (pathsAll enters above entries).Nodup := by
  cases entries with
  | nil => exact List.nodup_nil
  | cons pair rest =>
    obtain ⟨first, e⟩ := pair
    simp only [areSound, Bool.and_eq_true, decide_eq_true_eq] at he
    obtain ⟨⟨⟨-, hnew⟩, hsound⟩, hothers⟩ := he
    rw [pathsAll]
    refine List.Nodup.append ?_ (nodup_pathsAll hothers) fun path hfirst hrest => ?_
    · split
      · exact List.nodup_nil
      · exact nodup_paths hsound
    · -- Paths under two names part right after what lies above both.
      split at hfirst
      · cases hfirst
      · obtain ⟨rel, -, -, hpath, -⟩ := exists_file_of_mem_paths hsound hfirst
        obtain ⟨name, e', rel', -, -, hpath', -, hchild, -⟩ :=
          exists_file_of_mem_pathsAll hothers hrest
        rw [hpath, List.append_assoc, List.append_cancel_left_eq] at hpath'
        obtain ⟨rfl, -⟩ := List.cons.inj hpath'
        exact hnew (Keyed.mem_keys_of_get? hchild)
end

theorem mem_paths_iff (he : e.isSound = true) {rel : List String} :
    rel ∈ paths (fun _ => true) [] e ↔ ∃ mode content, e.get? rel = some (.file mode content) := by
  constructor
  · intro h
    obtain ⟨rel', mode, content, hrel, -, hfile⟩ := exists_file_of_mem_paths he h
    exact ⟨mode, content, hrel ▸ hfile⟩
  · rintro ⟨mode, content, hfile⟩
    exact mem_paths_of_get? [] hfile fun _ _ => rfl

theorem isName_of_get? {rel : List String} {mode : Nat} {content : Bytes} (he : e.isSound = true)
    (h : e.get? rel = some (.file mode content)) : ∀ name ∈ rel, IsName name := by
  obtain ⟨rel', -, -, hrel, hnames, -⟩ :=
    exists_file_of_mem_paths he ((mem_paths_iff he).2 ⟨mode, content, h⟩)
  rw [List.nil_append] at hrel
  exact hrel ▸ hnames

end Entry

namespace Discovery

variable {d : Discovery} {parts : List String} {root : Entry}

theorem partsOf_below (h : ∀ name ∈ parts, Entry.IsName name) (hparts : parts ≠ []) :
    partsOf (below parts) = parts := by
  rw [partsOf, below, if_neg (by simpa using hparts),
    Path.splitOn_intercalate rfl (fun name hname => (h name hname).1.2.2) hparts]
  simp

/-- What is accepted lies in no directory that is passed over. -/
theorem not_prunes_of_accepts (h : ∀ name ∈ parts, Entry.IsName name)
    (haccepts : d.accepts (below parts) = true) :
    ∀ name ∈ parts.dropLast, d.prunes name = false := by
  intro name hname
  rw [accepts, Bool.and_eq_true, Bool.not_eq_true'] at haccepts
  have hparts : parts ≠ [] := fun hnil => by
    rw [hnil] at hname
    cases hname
  refine Bool.eq_false_iff.2 fun hprunes => Bool.eq_false_iff.1 haccepts.1 ?_
  obtain ⟨entry, hentry, hprunes⟩ := List.any_eq_true.1 hprunes
  rw [Bool.and_eq_true, decide_eq_true_eq, Bool.not_eq_true'] at hprunes
  obtain ⟨rfl, hplain⟩ := hprunes
  refine List.any_eq_true.2 ⟨entry, hentry, ?_⟩
  rw [isIgnoredBy, partsOf_below h hparts]
  simp [hplain, hname]

theorem mem_foundBelow_iff (hroot : root.isSound = true) : parts ∈ d.foundBelow root ↔
    (∃ mode content, root.get? parts = some (.file mode content)) ∧
      d.accepts (below parts) = true := by
  rw [foundBelow, List.mem_filter]
  refine and_congr_left fun haccepts => ⟨fun hlisted => ?_, fun hstands => ?_⟩
  · obtain ⟨rel, mode, content, hrel, -, hfile⟩ := Entry.exists_file_of_mem_paths hroot hlisted
    exact ⟨mode, content, hrel ▸ hfile⟩
  · obtain ⟨mode, content, hfile⟩ := hstands
    have hkept := not_prunes_of_accepts (Entry.isName_of_get? hroot hfile) haccepts
    exact Entry.mem_paths_of_get? [] hfile fun name hname => by simp [hkept name hname]

theorem nodup_foundBelow (hroot : root.isSound = true) : (d.foundBelow root).Nodup :=
  (Entry.nodup_paths hroot).filter _

end Discovery

namespace Path

theorem compare_append (init a b : List String) :
    compare (init ++ a) (init ++ b) = compare a b := by
  induction init with
  | nil => rfl
  | cons first init ih =>
    rw [← ih]
    show List.compareLex _ _ _ = List.compareLex _ _ _
    rw [List.cons_append, List.cons_append, List.compareLex_cons_cons,
      Std.ReflOrd.compare_self, Ordering.eq_then]

theorem key_join (base : Path) (parts : List String) :
    (base.join ⟨0, parts⟩).key = base.key ++ parts := by
  show (if base.slashes = 0 then _ else _) = (if base.slashes = 0 then _ else _) ++ _
  split
  · rfl
  · rfl

/-- Paths below one path are ordered by what they add to it. -/
theorem le_join (base : Path) (a b : List String) :
    (base.join ⟨0, a⟩).le (base.join ⟨0, b⟩) = (compare a b).isLE := by
  rw [le, key_join, key_join, compare_append]

theorem join_injective (base : Path) : Function.Injective fun parts => base.join ⟨0, parts⟩ :=
  fun _ _ h => List.append_cancel_left (congrArg Path.parts h)

theorem relativeTo?_eq_some {p base : Path} {parts : List String} :
    p.relativeTo? base = some parts ↔ p = base.join ⟨0, parts⟩ := by
  constructor
  · intro h
    unfold relativeTo? at h
    split at h
    · next hslashes =>
      obtain ⟨slashes, names⟩ := p
      rw [List.isPrefixOf?_eq_some_iff_append_eq] at h
      exact congr (congrArg Path.mk hslashes) h.symm
    · cases h
  · rintro rfl
    exact relativeTo?_join base parts

/-- In the order of their parts. -/
def inOrder (found : List (List String)) : List (List String) :=
  found.mergeSort fun a b => (compare a b).isLE

theorem mergeSort_join (base : Path) (found : List (List String)) :
    (found.map fun parts => base.join ⟨0, parts⟩).mergeSort le =
      (inOrder found).map fun parts => base.join ⟨0, parts⟩ :=
  (List.map_mergeSort fun a _ b _ => (le_join base a b).symm).symm

theorem pairwise_inOrder {found : List (List String)} (h : found.Nodup) :
    (inOrder found).Pairwise fun a b => compare a b = .lt := by
  have hsorted := pairwise_mergeSort_key id found
  have hnodup : (inOrder found).Nodup := (List.mergeSort_perm found _).nodup_iff.2 h
  refine (hsorted.and hnodup).imp fun {a b} ⟨hle, hne⟩ => ?_
  cases hcompare : compare a b with
  | lt => rfl
  | eq => exact absurd (Std.LawfulEqOrd.eq_of_compare hcompare) hne
  | gt =>
    rw [id, id, hcompare] at hle
    cases hle

end Path

namespace Disk

variable {d : Disk} {root : Path} {discovery : Discovery}

/-- The files below a directory, by their parts. -/
def IsBelow (d : Disk) (root : Path) (parts : List String) : Prop :=
  parts ≠ [] ∧ ∃ content, d.standing ((Path.resolve d.here root).parts ++ parts) = .file content

theorem isBelow_iff {e : Entry} (hat : d.at? (Path.resolve d.here root).parts = some e)
    (he : e.isDirectory = true) {parts : List String} :
    d.IsBelow root parts ↔ ∃ mode content, e.get? parts = some (.file mode content) := by
  unfold IsBelow
  simp only [standing_eq_file_iff, at?_append, hat, Option.bind_some]
  constructor
  · rintro ⟨-, content, mode, hfile⟩
    exact ⟨mode, content, hfile⟩
  · rintro ⟨mode, content, hfile⟩
    refine ⟨?_, content, mode, hfile⟩
    rintro rfl
    rw [Entry.get?_nil, Option.some.injEq] at hfile
    rw [hfile] at he
    cases he

theorem not_isBelow (hroot : d.standing (Path.resolve d.here root).parts ≠ .directory)
    (parts : List String) : ¬ d.IsBelow root parts := by
  rintro ⟨hparts, content, hfile⟩
  exact hroot (directory_above_file hfile hparts)

/-- A disk finds what is accepted of the files below the root. -/
theorem exists_found (hnames : d.root.isSound = true) (root : Path) (discovery : Discovery) :
    ∃ found : List (List String), found.Nodup ∧
      (∀ parts, parts ∈ found ↔
        d.IsBelow root parts ∧ discovery.accepts (Discovery.below parts) = true) ∧
      d.find root discovery = (Path.inOrder found).map fun parts =>
        (Path.resolve d.here root).join ⟨0, parts⟩ := by
  by_cases hroot : d.standing (Path.resolve d.here root).parts = .directory
  · obtain ⟨mode, entries, hat⟩ := standing_eq_directory_iff.1 hroot
    have hsound := Entry.isSound_get? hnames hat
    refine ⟨discovery.foundBelow (.directory mode entries),
      Discovery.nodup_foundBelow hsound, fun parts => ?_, ?_⟩
    · rw [Discovery.mem_foundBelow_iff hsound, isBelow_iff hat rfl]
    · rw [← Path.mergeSort_join, find]
      simp only [hat]
      rfl
  · refine ⟨[], List.nodup_nil, fun parts => ?_, ?_⟩
    · simp [not_isBelow hroot parts]
    · rw [Path.inOrder, List.mergeSort_nil, List.map_nil]
      refine List.eq_nil_iff_forall_not_mem.2 fun q hq => ?_
      obtain ⟨mode, entries, -, hat, -⟩ := mem_find.1 hq
      exact hroot (standing_eq_directory_iff.2 ⟨mode, entries, hat⟩)

end Disk

namespace Memory

variable {m : Memory} {base : Path} {discovery : Discovery}

/-- The memory holds the files below a directory of a disk, and has them below `base`. -/
structure HoldsBelow (m : Memory) (base : Path) (d : Disk) (root : Path) : Prop where
  nodup : (Keyed.keys m.files).Nodup
  mem_iff : ∀ parts, base.join ⟨0, parts⟩ ∈ Keyed.keys m.files ↔ d.IsBelow root parts

theorem acceptsBelow_iff {p : Path} : discovery.acceptsBelow base p = true ↔
    ∃ parts, p = base.join ⟨0, parts⟩ ∧ discovery.accepts (Discovery.below parts) = true := by
  unfold Discovery.acceptsBelow
  cases hrelative : p.relativeTo? base with
  | none =>
    refine iff_of_false Bool.false_ne_true ?_
    rintro ⟨parts, hp, -⟩
    rw [Path.relativeTo?_eq_some.2 hp] at hrelative
    cases hrelative
  | some parts =>
    rw [Path.relativeTo?_eq_some] at hrelative
    constructor
    · intro haccepts
      exact ⟨parts, hrelative, haccepts⟩
    · rintro ⟨parts', hp, haccepts⟩
      rwa [Path.join_injective base (hrelative.symm.trans hp)]

theorem find_eq_of_holdsBelow {d : Disk} {root : Path} (h : m.HoldsBelow base d root)
    {found : List (List String)} (hnodup : found.Nodup)
    (hfound : ∀ parts, parts ∈ found ↔
      d.IsBelow root parts ∧ discovery.accepts (Discovery.below parts) = true) :
    m.find base discovery = (Path.inOrder found).map fun parts => base.join ⟨0, parts⟩ := by
  have hperm : ((Keyed.keys m.files).filter (discovery.acceptsBelow base)).Perm
      (found.map fun parts => base.join ⟨0, parts⟩) := by
    refine (List.perm_ext_iff_of_nodup (h.nodup.filter _)
      (hnodup.map (Path.join_injective base))).2 fun p => ?_
    rw [List.mem_filter, acceptsBelow_iff, List.mem_map]
    constructor
    · rintro ⟨hmem, parts, rfl, haccepts⟩
      exact ⟨parts, (hfound parts).2 ⟨(h.mem_iff parts).1 hmem, haccepts⟩, rfl⟩
    · rintro ⟨parts, hparts, rfl⟩
      obtain ⟨hbelow, haccepts⟩ := (hfound parts).1 hparts
      exact ⟨(h.mem_iff parts).2 hbelow, parts, rfl, haccepts⟩
  have hkeys : ((found.map fun parts => base.join ⟨0, parts⟩).map Path.key).Nodup := by
    rw [List.map_map]
    refine hnodup.map fun a b hab => ?_
    rw [Function.comp, Function.comp, Path.key_join, Path.key_join] at hab
    exact List.append_cancel_left hab
  rw [find, ← Path.mergeSort_join]
  exact (mergeSort_eq_of_perm Path.key hperm.symm hkeys).symm

end Memory

/-- What is found below a root, each file once and in the order of the parts, is what a filter
leaves of all files there. The same files held in memory are found the same way. -/
theorem Disk.find_eq_filter {d : Disk} (hnames : d.root.isSound = true) (root : Path)
    (discovery : Discovery) :
    ∃ found : List (List String),
      (∀ parts, parts ∈ found ↔ d.IsBelow root parts ∧
        Discovery.isIgnored (Discovery.below parts) discovery.ignored = false ∧
        ∃ pattern ∈ discovery.patterns,
          Discovery.matchesPattern (Discovery.below parts) pattern = true) ∧
      (found.Pairwise fun a b => compare a b = .lt) ∧
      d.find root discovery = (found.map fun parts =>
        (Path.resolve d.here root).join ⟨0, parts⟩) ∧
      ∀ (m : Memory) (base : Path), m.HoldsBelow base d root →
        m.find base discovery = found.map fun parts => base.join ⟨0, parts⟩ := by
  obtain ⟨found, hnodup, hfound, hfind⟩ := exists_found hnames root discovery
  refine ⟨Path.inOrder found, fun parts => ?_, Path.pairwise_inOrder hnodup, hfind,
    fun m base hholds => Memory.find_eq_of_holdsBelow hholds hnodup hfound⟩
  rw [Path.inOrder, List.mem_mergeSort, hfound, Discovery.accepts, Bool.and_eq_true,
    Bool.not_eq_true', List.any_eq_true]

namespace Filtering

def file : Entry := .file Entry.newFileMode []

def project : Entry := .directory Entry.newDirectoryMode
  [("src", .directory Entry.newDirectoryMode [("c.js", file)]), ("a.js", file),
    ("dist", .directory Entry.newDirectoryMode [("b.js", file)])]

def disk : Disk := { root := .directory Entry.newDirectoryMode [("p", project)] }

def root : Path := ⟨1, ["p"]⟩

/-- The files of the project, by relative paths. -/
def memory : Memory :=
  { files := [(⟨0, ["src", "c.js"]⟩, []), (⟨0, ["a.js"]⟩, []), (⟨0, ["dist", "b.js"]⟩, [])] }

theorem holdsBelow : memory.HoldsBelow ⟨0, []⟩ disk root where
  nodup := by decide
  mem_iff parts := by
    have hpaths : project.paths (fun _ => true) [] =
        [["src", "c.js"], ["a.js"], ["dist", "b.js"]] := rfl
    rw [Disk.isBelow_iff (e := project) rfl rfl, ← Entry.mem_paths_iff (by decide +kernel), hpaths]
    simp [memory, Keyed.keys, Path.join, Path.isAbsolute]

end Filtering

/-- Neither walk nor memory finds a file of a directory that is ignored by its name. -/
theorem Disk.find_eq_filter_sample :
    ∃ found : List (List String), ["src", "c.js"] ∈ found ∧ ["dist", "b.js"] ∉ found ∧
      Filtering.disk.find Filtering.root {} =
        (found.map fun parts => Filtering.root.join ⟨0, parts⟩) ∧
      Filtering.memory.find ⟨0, []⟩ {} = found.map fun parts => ⟨0, parts⟩ := by
  obtain ⟨found, hfound, -, hdisk, hmemory⟩ :=
    find_eq_filter (d := Filtering.disk) (by decide +kernel) Filtering.root {}
  refine ⟨found, (hfound _).2 ⟨⟨by decide, [], rfl⟩, by decide +kernel, by decide +kernel⟩,
    fun hmem => ?_, hdisk, hmemory _ _ Filtering.holdsBelow⟩
  exact absurd ((hfound _).1 hmem).2.1 (by decide +kernel)

end Deadwood
