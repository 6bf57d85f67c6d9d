import Deadwood.Analysis.Report
import Deadwood.Proofs.Keyed
import Deadwood.Proofs.Removal.WellFormed
import Deadwood.Proofs.Sorting
import Mathlib.Data.List.Nodup
import Mathlib.Data.String.Basic

/-!
Which names an analysis reports as unused. The pass over the files keeps the last symbol of each
name, the graph keeps those no file refers to, and each of them becomes one issue: a name has an
issue exactly if it is defined and nowhere referred to (`unused_issues_exact`).
-/
namespace Deadwood

namespace Index

/-! ## The last symbol of a name -/

def lastNamed? (symbols : List Symbol) (name : String) : Option Symbol :=
  (symbols.filter (·.name = name)).getLast?

theorem lastNamed?_append (a b : List Symbol) (name : String) :
    lastNamed? (a ++ b) name = (lastNamed? b name).or (lastNamed? a name) := by
  rw [lastNamed?, List.filter_append, List.getLast?_append]
  rfl

theorem lastNamed?_eq_none {symbols : List Symbol} {name : String} :
    lastNamed? symbols name = none ↔ ∀ s ∈ symbols, s.name ≠ name := by
  simp [lastNamed?]

theorem lastNamed?_spec {symbols : List Symbol} {name : String} {s : Symbol}
    (h : lastNamed? symbols name = some s) : s ∈ symbols ∧ s.name = name := by
  simpa using List.mem_filter.1 (List.mem_of_getLast? h)

theorem foldl_setLast (symbols : List Symbol) :
    symbols.foldl (fun l s => Keyed.setLast l s.name s) [] =
      (lastDefinitions symbols).map fun s => (s.name, s) := by
  have hkeyed : ∀ p ∈ symbols.foldl (fun l s => Keyed.setLast l s.name s) [], p = (p.2.name, p.2) := by
    induction symbols using List.reverseRecOn with
    | nil => simp
    | append_singleton symbols s ih =>
      intro p hp
      rw [List.foldl_append] at hp
      rcases List.mem_append.1 hp with hp | hp
      · exact ih p (List.mem_of_mem_filter hp)
      · rw [List.mem_singleton.1 hp]
  rw [lastDefinitions, List.map_map]
  exact (List.map_id _).symm.trans (List.map_congr_left hkeyed)

theorem lastDefinitions_concat (symbols : List Symbol) (s : Symbol) :
    lastDefinitions (symbols ++ [s]) =
      (lastDefinitions symbols).filter (·.name ≠ s.name) ++ [s] := by
  rw [lastDefinitions, List.foldl_append, foldl_setLast]
  simp [Keyed.setLast, Keyed.erase, List.filter_map, Function.comp_def]

/-- A name keeps one symbol, its last. -/
theorem filter_lastDefinitions (symbols : List Symbol) (name : String) :
    (lastDefinitions symbols).filter (·.name = name) = (lastNamed? symbols name).toList := by
  induction symbols using List.reverseRecOn with
  | nil => rfl
  | append_singleton symbols s ih =>
    rw [lastDefinitions_concat, List.filter_append, lastNamed?_append, List.filter_filter]
    by_cases hs : s.name = name
    · have hnone : (lastDefinitions symbols).filter
          (fun t => decide (t.name = name) && decide (t.name ≠ s.name)) = [] := by
        simp [hs]
      rw [hnone]
      simp [lastNamed?, hs]
    · have hsame : ∀ t : Symbol, (decide (t.name = name) && decide (t.name ≠ s.name)) =
          decide (t.name = name) := by
        intro t
        by_cases ht : t.name = name
        · simp [ht, Ne.symm hs]
        · simp [ht]
      rw [List.filter_congr fun t _ => hsame t, ih]
      simp [lastNamed?, hs]

theorem mem_of_mem_lastDefinitions {symbols : List Symbol} {s : Symbol}
    (h : s ∈ lastDefinitions symbols) : s ∈ symbols := by
  have hlast : s ∈ (lastDefinitions symbols).filter (·.name = s.name) :=
    List.mem_filter.2 ⟨h, decide_eq_true rfl⟩
  rw [filter_lastDefinitions, Option.mem_toList] at hlast
  exact (lastNamed?_spec hlast).1

theorem nodup_lastDefinitions (symbols : List Symbol) :
    ((lastDefinitions symbols).map (·.name)).Nodup := by
  induction symbols using List.reverseRecOn with
  | nil => exact List.nodup_nil
  | append_singleton symbols s ih =>
    have hkept : (((lastDefinitions symbols).filter (·.name ≠ s.name)).map (·.name)).Nodup :=
      ih.sublist (List.filter_sublist.map _)
    rw [lastDefinitions_concat, List.map_append, List.nodup_append]
    refine ⟨hkept, List.nodup_singleton _, fun name hname name' hname' => ?_⟩
    obtain ⟨t, ht, rfl⟩ := List.mem_map.1 hname
    rw [List.mem_singleton.1 hname']
    simpa using (List.mem_filter.1 ht).2

/-! ## The symbols that the graph keeps -/

variable {index : Index}

theorem isUsed_iff (h : (index.symbols.map (·.name)).Nodup) {s : Symbol}
    (hs : s ∈ index.symbols) :
    (ReferenceGraph.ofIndex index).isUsed s.name = true ↔ ∃ u ∈ index.usages, u.name = s.name := by
  have hkeys : (ReferenceGraph.ofIndex index).symbols.keys = index.symbols.map (·.name) := by
    rw [ReferenceGraph.ofIndex, Keyed.foldl_set h, Keyed.keys, List.map_map]
    rfl
  have hknown : s.name ∈ (ReferenceGraph.ofIndex index).symbols.keys := by
    rw [hkeys]
    exact List.mem_map_of_mem hs
  simp only [ReferenceGraph.isUsed, List.any_eq_true, decide_eq_true_eq]
  refine exists_congr fun u => and_congr_left fun hu => ?_
  rw [← hu] at hknown
  simp only [ReferenceGraph.ofIndex, List.mem_eraseDups, List.mem_filter, List.contains_iff_mem]
    at hknown ⊢
  exact and_iff_left hknown

theorem unused_ofIndex (h : (index.symbols.map (·.name)).Nodup) :
    (ReferenceGraph.ofIndex index).unused =
      index.symbols.filter fun s => ! index.usages.any (·.name = s.name) := by
  have hsymbols : (ReferenceGraph.ofIndex index).symbols = index.symbols.map fun s => (s.name, s) :=
    Keyed.foldl_set h
  rw [ReferenceGraph.unused, hsymbols, List.filter_map, List.map_map]
  refine (List.map_id _).trans (List.filter_congr fun s hs => ?_)
  have hused := isUsed_iff h hs
  rw [Function.comp, Bool.not_inj_iff, Bool.eq_iff_iff, hused]
  simp

end Index

/-- The issues that say a symbol of that name is unused. -/
def Issue.unusedNamed (name : String) (issues : List Issue) : List Issue :=
  issues.filter fun i => (i.kind = .unusedFunction ∨ i.kind = .unusedImport) ∧ i.name = name

theorem Issue.kind_ofUnused (s : Symbol) :
    (ofUnused s).kind = .unusedImport ↔ s.kind = .importBinding := by
  by_cases hs : s.kind = .importBinding
  · simp [ofUnused, hs, kind]
  · simp [ofUnused, hs, kind]

theorem Issue.unusedNamed_ofUnused (name : String) (symbols : List Symbol) :
    unusedNamed name (symbols.map ofUnused) =
      (symbols.filter (·.name = name)).map ofUnused := by
  rw [unusedNamed, List.filter_map]
  refine congrArg _ (List.filter_congr fun s _ => ?_)
  by_cases hs : s.kind = .importBinding
  · simp [ofUnused, hs, kind, Issue.name]
  · simp [ofUnused, hs, kind, Issue.name]

namespace Index

theorem unusedNamed_issues (index : Index) (name : String) :
    (Issue.unusedNamed name index.issues).Perm
      (((ReferenceGraph.ofIndex index).unused.filter (·.name = name)).map Issue.ofUnused) := by
  have hsorted : (Issue.unusedNamed name index.issues).Perm _ :=
    (List.mergeSort_perm _ Issue.le).filter _
  refine hsorted.trans (List.Perm.of_eq ?_)
  -- No issue of another kind counts.
  have hother : ∀ {α : Type} (wrap : α → Issue) (l : List α),
      (∀ a, (wrap a).kind ≠ .unusedFunction ∧ (wrap a).kind ≠ .unusedImport) →
        Issue.unusedNamed name (l.map wrap) = [] := by
    intro α wrap l h
    refine List.filter_eq_nil_iff.2 fun i hi => ?_
    obtain ⟨a, -, rfl⟩ := List.mem_map.1 hi
    simp [(h a).1, (h a).2]
  rw [← Issue.unusedNamed_ofUnused]
  simp only [List.filter_append]
  have hhandlers := hother .unreferencedHandler index.unreferencedHandlers (by simp [Issue.kind])
  have hduplicates := hother .duplicateGroup index.duplicates (by simp [Issue.kind])
  have hdead := hother .deadCodePath index.deadCode (by simp [Issue.kind])
  have hcomplex := hother .complexFunction index.complexFunctions (by simp [Issue.kind])
  rw [Issue.unusedNamed] at hhandlers hduplicates hdead hcomplex
  rw [hhandlers, hduplicates, hdead, hcomplex]
  simp [Issue.unusedNamed]

/-- An issue about an unused symbol is about a symbol of the index. -/
theorem exists_symbol_of_unused {index : Index} {i : Issue}
    (hnames : (index.symbols.map (·.name)).Nodup) (hi : i ∈ index.issues)
    (hunused : i.unusedSymbol?.isSome = true) : ∃ s ∈ index.symbols, i.file = s.file := by
  simp only [issues, Issue.sort, List.mem_mergeSort, List.mem_append, List.mem_map] at hi
  rcases hi with (((⟨s, hs, rfl⟩ | ⟨_, -, rfl⟩) | ⟨_, -, rfl⟩) | ⟨_, -, rfl⟩) | ⟨_, -, rfl⟩
  · rw [unused_ofIndex hnames] at hs
    refine ⟨s, List.mem_of_mem_filter hs, ?_⟩
    unfold Issue.ofUnused
    split
    · rfl
    · rfl
  all_goals cases hunused

/-! ## The index of a list of files -/

end Index

def SourceFile.symbols (f : SourceFile) : List Symbol := Symbol.extract f.source f.name f.tree

namespace Index

variable {files : List SourceFile} {name : String}

def Defines (files : List SourceFile) (name : String) : Prop :=
  ∃ f ∈ files, ∃ s ∈ f.symbols, s.name = name

/-- Some file holds an identifier of that name in a place that does not declare it. -/
def Refers (files : List SourceFile) (name : String) : Prop :=
  ∃ f ∈ files, ∃ p ∈ Place.preorder f.tree, p.node.kind = .identifier ∧ p.node.isLeaf = true ∧
    p.node.text f.source = name ∧ Reference.isBinding p = false

/-- The last symbol of its name, by the names of the files and in each in document order. -/
def IsLast (files : List SourceFile) (s : Symbol) : Prop :=
  ∃ f ∈ files, lastNamed? f.symbols s.name = some s ∧
    ∀ g ∈ files, (∃ t ∈ g.symbols, t.name = s.name) → g = f ∨ g.name < f.name

theorem mem_names {f : SourceFile} : name ∈ Reference.names f.source f.tree ↔
    ∃ p ∈ Place.preorder f.tree, p.node.kind = .identifier ∧ p.node.isLeaf = true ∧
      p.node.text f.source = name ∧ Reference.isBinding p = false := by
  simp only [Reference.names, Reference.identifiers, Reference.isIdentifier, List.mem_map,
    List.mem_filter, Bool.and_eq_true, decide_eq_true_eq, Bool.not_eq_true']
  constructor
  · rintro ⟨p, ⟨⟨hp, hkind, hleaf⟩, hbinding⟩, htext⟩
    exact ⟨p, hp, hkind, hleaf, htext, hbinding⟩
  · rintro ⟨p, hp, hkind, hleaf, htext, hbinding⟩
    exact ⟨p, ⟨⟨hp, hkind, hleaf⟩, hbinding⟩, htext⟩

/-- A known name has a usage exactly if some file refers to it. -/
theorem exists_usage_iff {known : List String} (hname : name ∈ known) :
    (∃ u ∈ usagesOf known files, u.name = name) ↔ Refers files name := by
  simp only [usagesOf, List.mem_mergeSort, List.mem_eraseDups, List.mem_flatMap, Reference.usages,
    List.mem_map, List.mem_filter, List.contains_iff_mem]
  constructor
  · rintro ⟨-, ⟨f, hf, m, ⟨hm, -⟩, rfl⟩, rfl⟩
    exact ⟨f, hf, mem_names.1 hm⟩
  · rintro ⟨f, hf, hm⟩
    exact ⟨⟨name, f.name⟩, ⟨f, hf, name, ⟨mem_names.2 hm, hname⟩, rfl⟩, rfl⟩

/-- The last symbol of a name comes from the last file that defines it. -/
theorem lastNamed?_flatMap {s : Symbol} (h : lastNamed? (files.flatMap (·.symbols)) name = some s) :
    ∃ before f after, files = before ++ f :: after ∧ lastNamed? f.symbols name = some s ∧
      ∀ g ∈ after, ∀ t ∈ g.symbols, t.name ≠ name := by
  induction files using List.reverseRecOn with
  | nil => cases h
  | append_singleton files f ih =>
    rw [List.flatMap_append, lastNamed?_append, List.flatMap_singleton] at h
    cases hlast : lastNamed? f.symbols name with
    | some t =>
      rw [hlast] at h
      exact ⟨files, f, [], rfl, h ▸ hlast, by simp⟩
    | none =>
      rw [hlast] at h
      obtain ⟨before, g, after, rfl, hg, hafter⟩ := ih h
      refine ⟨before, g, after ++ [f], by simp, hg, fun g' hg' => ?_⟩
      rcases List.mem_append.1 hg' with hg' | hg'
      · exact hafter g' hg'
      · rw [List.mem_singleton.1 hg']
        exact lastNamed?_eq_none.1 hlast

theorem pairwise_nameLe (files : List SourceFile) :
    (files.mergeSort nameLe).Pairwise fun f g => f.name ≤ g.name :=
  (pairwise_mergeSort_key SourceFile.name files).imp Std.LawfulBCmp.isLE_iff_le.1

theorem isLast_of_lastNamed? (hnames : (files.map (·.name)).Nodup) {s : Symbol}
    (h : lastNamed? ((files.mergeSort nameLe).flatMap (·.symbols)) name = some s) :
    s.name = name ∧ IsLast files s := by
  obtain ⟨before, f, after, hsplit, hlast, hafter⟩ := lastNamed?_flatMap h
  have hsorted := pairwise_nameLe files
  have hmem : ∀ g, g ∈ files ↔ g ∈ before ++ f :: after := fun g => by
    rw [← hsplit, List.mem_mergeSort]
  have hname := (lastNamed?_spec hlast).2
  subst hname
  refine ⟨rfl, f, (hmem f).2 (by simp), hlast, fun g hg ⟨t, ht, hname⟩ => ?_⟩
  by_cases heq : g = f
  · exact .inl heq
  · rw [hsplit, List.pairwise_append] at hsorted
    rw [hmem, List.mem_append, List.mem_cons] at hg
    rcases hg with hbefore | rfl | hg
    · refine .inr (lt_of_le_of_ne (hsorted.2.2 g hbefore f List.mem_cons_self) fun hsame => heq ?_)
      exact List.inj_on_of_nodup_map hnames ((hmem g).2 (by simp [hbefore]))
        ((hmem f).2 (by simp)) hsame
    · exact absurd rfl heq
    · exact absurd hname (hafter g hg t ht)

theorem exists_lastNamed?_iff :
    (∃ s, lastNamed? ((files.mergeSort nameLe).flatMap (·.symbols)) name = some s) ↔
      Defines files name := by
  rw [← Option.isSome_iff_exists, ← not_iff_not, Bool.not_eq_true, Option.isSome_eq_false_iff,
    Option.isNone_iff_eq_none, lastNamed?_eq_none]
  simp only [Defines, List.mem_flatMap, List.mem_mergeSort]
  grind

/-- The index keeps the last symbol of each name. -/
theorem symbols_build (options : AnalysisOptions) (failures : List ParseFailure) :
    (build options files failures).symbols =
      lastDefinitions ((files.mergeSort nameLe).flatMap (·.symbols)) := rfl

/-- The unused symbols of a name: its last one, unless a file refers to it. -/
theorem filter_unused_build (options : AnalysisOptions) (failures : List ParseFailure) :
    (ReferenceGraph.ofIndex (build options files failures)).unused.filter (·.name = name) =
      (lastNamed? ((files.mergeSort nameLe).flatMap (·.symbols)) name).toList.filter fun _ =>
        ! (build options files failures).usages.any (·.name = name) := by
  rw [unused_ofIndex (symbols_build options failures ▸ nodup_lastDefinitions _),
    ← filter_lastDefinitions, ← symbols_build options failures, List.filter_filter,
    List.filter_filter]
  refine List.filter_congr fun s _ => ?_
  by_cases hs : s.name = name
  · simp [hs]
  · simp [hs]

theorem any_usages_build_iff (options : AnalysisOptions) (failures : List ParseFailure)
    (hdefines : Defines files name) :
    (build options files failures).usages.any (·.name = name) = true ↔ Refers files name := by
  obtain ⟨s, hs⟩ := exists_lastNamed?_iff.2 hdefines
  have hknown : name ∈ (symbolsOf (files.mergeSort nameLe)).map (·.name) := by
    have hmem : s ∈ (symbolsOf (files.mergeSort nameLe)).filter (·.name = name) := by
      rw [symbolsOf, filter_lastDefinitions]
      exact Option.mem_toList.2 hs
    obtain ⟨hmem, hname⟩ := List.mem_filter.1 hmem
    exact List.mem_map.2 ⟨s, hmem, of_decide_eq_true hname⟩
  have hrefers : Refers (files.mergeSort nameLe) name ↔ Refers files name := by
    simp only [Refers, List.mem_mergeSort]
  rw [← hrefers, ← exists_usage_iff hknown]
  simp only [build, ofOrdered, List.any_eq_true, decide_eq_true_eq]

/-- The one issue about a defined name that no file refers to is about its last symbol. -/
theorem unusedNamed_eq_singleton (options : AnalysisOptions) (failures : List ParseFailure)
    {s : Symbol} (hlast : lastNamed? ((files.mergeSort nameLe).flatMap (·.symbols)) name = some s)
    (hrefers : ¬ Refers files name) :
    Issue.unusedNamed name (build options files failures).issues = [Issue.ofUnused s] := by
  have hperm := unusedNamed_issues (build options files failures) name
  have hused := any_usages_build_iff options failures (exists_lastNamed?_iff.1 ⟨s, hlast⟩)
  rw [filter_unused_build, hlast, Bool.eq_false_iff.2 (mt hused.1 hrefers)] at hperm
  exact List.perm_singleton.1 hperm

/-- A name is reported exactly if it is defined and nowhere referred to. -/
theorem unusedNamed_ne_nil_iff (options : AnalysisOptions) (failures : List ParseFailure)
    (name : String) : Issue.unusedNamed name (build options files failures).issues ≠ [] ↔
      Defines files name ∧ ¬ Refers files name := by
  have hperm := unusedNamed_issues (build options files failures) name
  rw [filter_unused_build] at hperm
  by_cases hdefines : Defines files name
  · obtain ⟨s, hs⟩ := exists_lastNamed?_iff.2 hdefines
    have hused := any_usages_build_iff options failures hdefines
    rw [hs] at hperm
    by_cases hrefers : Refers files name
    · rw [hused.2 hrefers] at hperm
      rw [List.perm_nil.1 hperm]
      simp [hrefers]
    · rw [unusedNamed_eq_singleton options failures hs hrefers]
      simp [hdefines, hrefers]
  · have hnone : lastNamed? ((files.mergeSort nameLe).flatMap (·.symbols)) name = none := by
      rw [Option.eq_none_iff_forall_ne_some]
      exact fun s hs => hdefines (exists_lastNamed?_iff.1 ⟨s, hs⟩)
    rw [hnone] at hperm
    rw [List.perm_nil.1 hperm]
    simp [hdefines]

/-- An issue about an unused symbol names one of the files of the analysis. -/
theorem exists_file_of_unused {options : AnalysisOptions} {failures : List ParseFailure}
    {i : Issue} (hi : i ∈ (build options files failures).issues)
    (hunused : i.unusedSymbol?.isSome = true) : ∃ f ∈ files, i.file = f.name := by
  have hnames : ((build options files failures).symbols.map (·.name)).Nodup :=
    symbols_build options failures ▸ nodup_lastDefinitions _
  obtain ⟨s, hs, hfile⟩ := exists_symbol_of_unused hnames hi hunused
  rw [symbols_build] at hs
  obtain ⟨f, hf, hs⟩ := List.mem_flatMap.1 (mem_of_mem_lastDefinitions hs)
  obtain ⟨d, -, rfl⟩ := List.mem_map.1 hs
  exact ⟨f, List.mem_mergeSort.1 hf, hfile⟩

/-- A name has an issue exactly if it is defined and nowhere referred to. It then has one issue,
about its last symbol, and of the kind that this symbol's kind says. -/
theorem unused_issues_exact (hnames : (files.map (·.name)).Nodup) (options : AnalysisOptions)
    (failures : List ParseFailure) (name : String) :
    (Issue.unusedNamed name (build options files failures).issues ≠ [] ↔
      Defines files name ∧ ¬ Refers files name) ∧
    ∀ i ∈ Issue.unusedNamed name (build options files failures).issues,
      Issue.unusedNamed name (build options files failures).issues = [i] ∧
        ∃ s, i.unusedSymbol? = some s ∧ s.name = name ∧ IsLast files s ∧
          (i.kind = .unusedImport ↔ s.kind = .importBinding) := by
  have hperm := unusedNamed_issues (build options files failures) name
  rw [filter_unused_build] at hperm
  cases hlast : lastNamed? ((files.mergeSort nameLe).flatMap (·.symbols)) name with
  | none =>
    have hundefined : ¬ Defines files name := by
      rw [← exists_lastNamed?_iff, hlast]
      simp
    rw [hlast] at hperm
    rw [List.perm_nil.1 hperm]
    simp [hundefined]
  | some s =>
    have hdefines : Defines files name := exists_lastNamed?_iff.1 ⟨s, hlast⟩
    have hused := any_usages_build_iff options failures hdefines
    rw [hlast] at hperm
    by_cases hrefers : Refers files name
    · rw [hused.2 hrefers] at hperm
      rw [List.perm_nil.1 hperm]
      simp [hrefers]
    · rw [Bool.eq_false_iff.2 (mt hused.1 hrefers)] at hperm
      have hone : Issue.unusedNamed name (build options files failures).issues =
          [Issue.ofUnused s] := List.perm_singleton.1 hperm
      obtain ⟨hname, hisLast⟩ := isLast_of_lastNamed? hnames hlast
      rw [hone]
      refine ⟨by simp [hdefines, hrefers], fun i hi => ?_⟩
      rw [List.mem_singleton.1 hi]
      exact ⟨rfl, s, Issue.unusedSymbol?_ofUnused s, hname, hisLast, Issue.kind_ofUnused s⟩

namespace Sample

open Deadwood.Sample (node token)

/-- An import of a name that another file gives to a function. -/
def importing : SourceFile :=
  ⟨⟨0, ["a.js"]⟩, Utf8.encode "import f from \"m\";\n",
    node "program" none 0 19 [node "import_statement" none 0 18 [token "import" 0 6,
      node "import_clause" none 7 8 [node "identifier" none 7 8 []], token "from" 9 13,
      node "string" (some "source") 14 17 [token "\"" 14 15,
        node "string_fragment" none 15 16 [], token "\"" 16 17], token ";" 17 18]]⟩

def defining : SourceFile :=
  ⟨⟨0, ["b.js"]⟩, Utf8.encode "function f() \x7b\x7d\n",
    node "program" none 0 16 [node "function_declaration" none 0 15 [token "function" 0 8,
      node "identifier" (some "name") 9 10 [],
      node "formal_parameters" (some "parameters") 10 12 [token "(" 10 11, token ")" 11 12],
      node "statement_block" (some "body") 13 15 [token "\x7b" 13 14, token "\x7d" 14 15]]]⟩

end Sample

/-- Two files that define one name and never refer to it. -/
theorem unused_issues_exact_sample :
    ([Sample.defining, Sample.importing].map (·.name)).Nodup ∧
    Defines [Sample.defining, Sample.importing] "f" ∧
    ¬ Refers [Sample.defining, Sample.importing] "f" ∧
    ∃ i s, Issue.unusedNamed "f" (build {} [Sample.defining, Sample.importing] []).issues = [i] ∧
      i.unusedSymbol? = some s ∧ IsLast [Sample.defining, Sample.importing] s := by
  have hnames : ([Sample.defining, Sample.importing].map (·.name)).Nodup := by decide +kernel
  have hdefines : Defines [Sample.defining, Sample.importing] "f" := by
    unfold Defines
    decide +kernel
  have hrefers : ¬ Refers [Sample.defining, Sample.importing] "f" := by
    unfold Refers
    decide +kernel
  obtain ⟨hiff, hone⟩ := unused_issues_exact hnames {} [] "f"
  obtain ⟨i, hi⟩ := List.exists_mem_of_ne_nil _ (hiff.2 ⟨hdefines, hrefers⟩)
  obtain ⟨hlist, s, hs, -, hlast, -⟩ := hone i hi
  exact ⟨hnames, hdefines, hrefers, i, s, hlist, hs, hlast⟩

end Index

end Deadwood
