import Deadwood.Proofs.Analysis.Unused
import Deadwood.Proofs.Sorting

/-!
Files reach the index in the order in which their reading ends. The passes see them by name, so that
no pass, and nothing in the report, depends on it (`build_eq_of_perm`).
-/
namespace Deadwood

namespace Index

variable {files files' : List SourceFile} {failures failures' : List ParseFailure}

theorem ordered_eq_of_perm (h : files.Perm files') (hnames : (files.map (·.name)).Nodup) :
    files.mergeSort nameLe = files'.mergeSort nameLe :=
  mergeSort_eq_of_perm SourceFile.name h hnames

/-- The index of files with names of their own, and so the report, is the same in whatever order the
files and the failures come. -/
theorem build_eq_of_perm (options : AnalysisOptions) (h : files.Perm files')
    (hnames : (files.map (·.name)).Nodup) (hf : failures.Perm failures')
    (hfiles : (failures.map (·.file)).Nodup) :
    build options files failures = build options files' failures' ∧
      AnalysisReport.ofIndex (build options files failures) =
        AnalysisReport.ofIndex (build options files' failures') := by
  have hbuild : build options files failures = build options files' failures' := by
    unfold build
    rw [ordered_eq_of_perm h hnames, mergeSort_eq_of_perm ParseFailure.file hf hfiles]
  exact ⟨hbuild, congrArg AnalysisReport.ofIndex hbuild⟩

namespace Sample

def unread : List ParseFailure := [⟨"c.js", "Cannot read file"⟩, ⟨"d.js", "Syntax error"⟩]

end Sample

/-- Two files that define one name: the later of them in name wins, and not the later to arrive. -/
theorem build_eq_of_perm_sample :
    ([Sample.defining, Sample.importing].map (·.name)).Nodup ∧
    (Sample.unread.map (·.file)).Nodup ∧
    build {} [Sample.defining, Sample.importing] Sample.unread =
      build {} [Sample.importing, Sample.defining] Sample.unread.reverse ∧
    (build {} [Sample.defining, Sample.importing] Sample.unread).symbols.map (·.file) =
      ["b.js"] := by
  have hnames : ([Sample.defining, Sample.importing].map (·.name)).Nodup := by decide +kernel
  have hfiles : (Sample.unread.map (·.file)).Nodup := by decide +kernel
  have hsame := (build_eq_of_perm {} (List.Perm.swap Sample.importing Sample.defining []) hnames
    (List.reverse_perm Sample.unread).symm hfiles).1
  have hordered : [Sample.importing, Sample.defining].mergeSort nameLe =
      [Sample.importing, Sample.defining] := List.mergeSort_of_pairwise (by decide +kernel)
  refine ⟨hnames, hfiles, hsame, ?_⟩
  rw [hsame, symbols_build, hordered]
  decide +kernel

end Index

end Deadwood
