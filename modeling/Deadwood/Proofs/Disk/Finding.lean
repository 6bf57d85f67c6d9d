import Deadwood.Disk.Discovery
import Deadwood.Proofs.Path

/-!
Finding files. What is found under a root are the accepted files of its directory (`Disk.mem_find`),
and a discovery that ignores less finds all that it has a pattern for (`mem_foundBelow_of_ignored`).
-/
namespace Deadwood

namespace Entry

mutual
theorem paths_mono {enters enters' : String → Bool}
    (h : ∀ name, enters name = true → enters' name = true) (above : List String) (e : Entry) :
    paths enters above e ⊆ paths enters' above e := by
  cases e with
  | file => exact List.Subset.refl _
  | directory mode entries => exact pathsAll_mono h above entries

theorem pathsAll_mono {enters enters' : String → Bool}
    (h : ∀ name, enters name = true → enters' name = true) (above : List String)
    (entries : List (String × Entry)) :
    pathsAll enters above entries ⊆ pathsAll enters' above entries := by
  cases entries with
  | nil => exact List.Subset.refl _
  | cons pair rest =>
    obtain ⟨name, e⟩ := pair
    intro path hpath
    rw [pathsAll, List.mem_append] at hpath ⊢
    refine hpath.imp (fun hpath => ?_) fun hpath => pathsAll_mono h above rest hpath
    split at hpath
    · cases hpath
    · next henters =>
      rw [if_neg]
      · exact paths_mono h _ e hpath
      · simp only [Bool.and_eq_true, Bool.not_eq_true', not_and, Bool.not_eq_false] at henters ⊢
        exact fun hdirectory => h name (henters hdirectory)
end

end Entry

namespace Discovery

variable {d d' : Discovery}

theorem isIgnored_mono {ignored ignored' : List String} (h : ignored ⊆ ignored') {path : String}
    (hpath : isIgnored path ignored = true) : isIgnored path ignored' = true := by
  rw [isIgnored, List.any_eq_true] at hpath ⊢
  obtain ⟨entry, hentry, hignored⟩ := hpath
  exact ⟨entry, h hentry, hignored⟩

theorem prunes_mono (h : d.ignored ⊆ d'.ignored) {name : String} (hname : d.prunes name = true) :
    d'.prunes name = true := by
  rw [prunes, List.any_eq_true] at hname ⊢
  obtain ⟨entry, hentry, hprunes⟩ := hname
  exact ⟨entry, h hentry, hprunes⟩

/-- What ignores less finds what it has a pattern for. -/
theorem mem_foundBelow_of_ignored {root : Entry} {parts : List String}
    (h : parts ∈ d.foundBelow root) (hignored : d'.ignored ⊆ d.ignored)
    (hpattern : d'.patterns.any (matchesPattern (below parts)) = true) :
    parts ∈ d'.foundBelow root := by
  rw [foundBelow, List.mem_filter, accepts, Bool.and_eq_true, Bool.not_eq_true'] at h ⊢
  obtain ⟨hpath, hkept, -⟩ := h
  refine ⟨Entry.paths_mono (fun name hname => ?_) [] root hpath, ?_, hpattern⟩
  · rw [Bool.not_eq_true'] at hname ⊢
    exact Bool.eq_false_iff.2 fun hprunes => Bool.eq_false_iff.1 hname (prunes_mono hignored hprunes)
  · exact Bool.eq_false_iff.2 fun hpath => Bool.eq_false_iff.1 hkept (isIgnored_mono hignored hpath)

end Discovery

theorem Disk.mem_find {disk : Disk} {root q : Path} {d : Discovery} : q ∈ disk.find root d ↔
    ∃ mode entries parts,
      disk.at? (Path.resolve disk.here root).parts = some (.directory mode entries) ∧
      parts ∈ d.foundBelow (.directory mode entries) ∧
      q = { Path.resolve disk.here root with
        parts := (Path.resolve disk.here root).parts ++ parts } := by
  unfold find
  dsimp only
  cases hroot : disk.at? (Path.resolve disk.here root).parts with
  | none => simp
  | some e =>
    cases e with
    | file => simp
    | directory mode entries =>
      simp only [List.mem_mergeSort, List.mem_map, Option.some.injEq, Entry.directory.injEq]
      constructor
      · rintro ⟨parts, hparts, rfl⟩
        exact ⟨mode, entries, parts, ⟨rfl, rfl⟩, hparts, rfl⟩
      · rintro ⟨mode', entries', parts, ⟨rfl, rfl⟩, hparts, rfl⟩
        exact ⟨parts, hparts, rfl⟩

/-- What lies in order in its directory is found in that order. -/
theorem Disk.find_of_sorted {disk : Disk} {root : Path} {d : Discovery} {mode : Nat}
    {entries : List (String × Entry)} {sources : List Path}
    (hroot : disk.at? (Path.resolve disk.here root).parts = some (.directory mode entries))
    (hfound : (d.foundBelow (.directory mode entries)).map (fun parts =>
      { Path.resolve disk.here root with
        parts := (Path.resolve disk.here root).parts ++ parts }) = sources)
    (hsorted : sources.Pairwise fun p q => p.le q = true) : disk.find root d = sources := by
  unfold find
  dsimp only
  rw [hroot]
  dsimp only
  rw [hfound]
  exact List.mergeSort_of_pairwise hsorted

end Deadwood
