import Deadwood.Proofs.Disk.Finding
import Deadwood.Proofs.Disk.Standing

/-!
Disks as they are in use: the names in a directory are distinct and can stand in a path. A file that
is found on such a disk stands there under the names of its path (`exists_file_of_mem_find`).
-/
namespace Deadwood

namespace Entry

/-- What an entry of a directory can be called. -/
def IsName (name : String) : Prop := Path.IsPart name ∧ name ≠ ".."

instance (name : String) : Decidable (IsName name) := inferInstanceAs (Decidable (_ ∧ _))

mutual
/-- Whether all names below are distinct within their directory and can stand in a path. -/
def isSound : Entry → Bool
  | .file _ _ => true
  | .directory _ entries => areSound entries

def areSound : List (String × Entry) → Bool
  | [] => true
  | (name, e) :: rest =>
    decide (IsName name) && decide (name ∉ Keyed.keys rest) && e.isSound && areSound rest
end

mutual
theorem exists_file_of_mem_paths {enters : String → Bool} {above parts : List String} {e : Entry}
    (he : e.isSound = true) (h : parts ∈ paths enters above e) :
    ∃ rel mode content, parts = above ++ rel ∧ (∀ name ∈ rel, IsName name) ∧
      e.get? rel = some (.file mode content) := by
  cases e with
  | file mode content =>
    rw [paths, List.mem_singleton] at h
    exact ⟨[], mode, content, by simp [h], nofun, rfl⟩
  | directory mode entries =>
    rw [isSound] at he
    obtain ⟨name, e, rel, mode', content, hparts, hnames, hchild, hfile⟩ :=
      exists_file_of_mem_pathsAll he h
    refine ⟨name :: rel, mode', content, hparts, hnames, ?_⟩
    rw [get?, child?, hchild]
    exact hfile

theorem exists_file_of_mem_pathsAll {enters : String → Bool} {above parts : List String}
    {entries : List (String × Entry)} (he : areSound entries = true)
    (h : parts ∈ pathsAll enters above entries) :
    ∃ name e rel mode content, parts = above ++ name :: rel ∧ (∀ n ∈ name :: rel, IsName n) ∧
      Keyed.get? entries name = some e ∧ e.get? rel = some (.file mode content) := by
  cases entries with
  | nil => cases h
  | cons pair rest =>
    obtain ⟨first, e⟩ := pair
    simp only [areSound, Bool.and_eq_true, decide_eq_true_eq] at he
    obtain ⟨⟨⟨hname, hnew⟩, hsound⟩, hothers⟩ := he
    rw [pathsAll, List.mem_append] at h
    rcases h with h | h
    · split at h
      · cases h
      · obtain ⟨rel, mode, content, hparts, hnames, hfile⟩ := exists_file_of_mem_paths hsound h
        refine ⟨first, e, rel, mode, content, by simp [hparts], ?_, ?_, hfile⟩
        · exact List.forall_mem_cons.2 ⟨hname, hnames⟩
        · rw [Keyed.get?_cons, if_pos rfl]
    · obtain ⟨name, e', rel, mode, content, hparts, hnames, hchild, hfile⟩ :=
        exists_file_of_mem_pathsAll hothers h
      refine ⟨name, e', rel, mode, content, hparts, hnames, ?_, hfile⟩
      have hne : first ≠ name := by
        rintro rfl
        obtain ⟨pair, hpair, -⟩ := Option.map_eq_some_iff.1 hchild
        have hkey := List.find?_some hpair
        rw [decide_eq_true_eq] at hkey
        exact hnew (hkey ▸ List.mem_map_of_mem (List.mem_of_find?_eq_some hpair))
      rw [Keyed.get?_cons, if_neg hne, hchild]
end

end Entry

namespace Disk

structure Sound (d : Disk) : Prop where
  root : d.standing [] = .directory
  names : d.root.isSound = true
  here : d.here.Normal

end Disk

namespace Entry

theorem isSound_child {m : Nat} {entries : List (String × Entry)} {name : String} {e : Entry}
    (h : areSound entries = true) (he : (directory m entries).child? name = some e) :
    e.isSound = true := by
  induction entries with
  | nil => cases he
  | cons pair rest ih =>
    obtain ⟨first, e'⟩ := pair
    simp only [areSound, Bool.and_eq_true] at h
    rw [child?, Keyed.get?_cons] at he
    split at he
    · exact Option.some.inj he ▸ h.1.2
    · exact ih h.2 he

theorem isSound_get? {names : List String} {e e' : Entry} (h : e.isSound = true)
    (he : e.get? names = some e') : e'.isSound = true := by
  induction names generalizing e with
  | nil =>
    rw [get?_nil, Option.some.injEq] at he
    exact he ▸ h
  | cons name rest ih =>
    obtain ⟨m, entries, c, rfl, hchild, hrest⟩ := exists_directory_of_get? he
    exact ih (isSound_child h hchild) hrest

end Entry

theorem Disk.exists_file_of_mem_find {d : Disk} (hsound : d.Sound) {root q : Path}
    {discovery : Discovery} (h : q ∈ d.find root discovery) :
    ∃ rel content, q = (Path.resolve d.here root).join ⟨0, rel⟩ ∧
      (∀ name ∈ rel, Entry.IsName name) ∧ d.standing q.parts = .file content ∧
      discovery.accepts (Discovery.below rel) = true := by
  obtain ⟨mode, entries, rel, hat, hfound, rfl⟩ := mem_find.1 h
  obtain ⟨hlisted, haccepts⟩ := List.mem_filter.1 hfound
  have hdirectory := Entry.isSound_get? hsound.names hat
  obtain ⟨rel', mode', content, hrel, hnames, hfile⟩ :=
    Entry.exists_file_of_mem_paths hdirectory hlisted
  rw [List.nil_append] at hrel
  subst hrel
  refine ⟨rel, content, rfl, hnames, standing_eq_file_iff.2 ⟨mode', ?_⟩, haccepts⟩
  rw [at?_append, hat]
  exact hfile

end Deadwood
