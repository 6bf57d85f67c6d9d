import Deadwood.Proofs.Removal.Compatible

/-!
What is at stake at a place: the targeted symbols that a change there is about. A change takes each
of them and names them all, and each of its edits takes one.
-/
namespace Deadwood.Plan

variable {t : Targets} {source : Bytes} {tree : Node} {p target : Place} {c : Change} {e : Edit}
  {b : Place × SymbolKind}

/-- The targeted symbols that a change at a place is about: its own or those of its declarators. -/
def atStake (t : Targets) (source : Bytes) (p : Place) : List (Place × SymbolKind) :=
  if p.node.kind = .variableDeclaration then (declarators p).flatMap (targeted t source)
  else targeted t source p

/-- The symbols at stake are defined at the place or at a child. -/
theorem atStake_cases (h : b ∈ atStake t source p) :
    ∃ d, (d = p ∨ d ∈ declarators p) ∧ b ∈ targeted t source d := by
  unfold atStake at h
  split at h
  · obtain ⟨d, hd, hb⟩ := List.mem_flatMap.1 h
    exact ⟨d, .inr hd, hb⟩
  · exact ⟨p, .inl rfl, h⟩

theorem mem_targeted : b ∈ targeted t source p ↔
    b ∈ Symbol.definitions source p ∧ t.holds source b.2 b.1.node = true := List.mem_filter

theorem atStake_of_tree (hp : Place.Of tree p) (h : b ∈ atStake t source p) :
    Place.Of tree b.1 ∧ p.address <:+ b.1.address ∧ b ∈ Symbol.definitionsOf source tree ∧
      t.holds source b.2 b.1.node = true := by
  obtain ⟨d, hd, hb⟩ := atStake_cases h
  have hdof : Place.Of tree d ∧ p.address <:+ d.address := by
    rcases hd with rfl | hd
    · exact ⟨hp, List.suffix_rfl⟩
    · have hmem := mem_children_of_mem_declarators hd
      exact ⟨hp.of_mem_children hmem, Place.suffix_of_mem_children hmem⟩
  obtain ⟨hdef, hholds⟩ := mem_targeted.1 hb
  obtain ⟨hbof, hsuffix⟩ := Symbol.definitions_of_tree hdof.1 hdef
  exact ⟨hbof, hdof.2.trans hsuffix, Symbol.mem_definitionsOf.2 ⟨d, hdof.1, hdef⟩, hholds⟩

theorem pairwise_targeted (t : Targets) (source : Bytes) (p : Place) :
    (targeted t source p).Pairwise fun a b => Address.Before a.1.address b.1.address :=
  (Symbol.pairwise_definitions source p).sublist List.filter_sublist

/-- The symbols at stake come in document order. -/
theorem pairwise_atStake (t : Targets) (source : Bytes) (hp : Place.Of tree p) :
    (atStake t source p).Pairwise fun a b => Address.Before a.1.address b.1.address := by
  unfold atStake
  split
  · rw [List.pairwise_flatMap]
    refine ⟨fun d _ => pairwise_targeted t source d, ?_⟩
    refine ((Place.pairwise_children p).sublist
      (List.filter_sublist.trans List.filter_sublist)).imp_of_mem ?_
    intro d d' hd hd' hdd a ha b hb
    have under : ∀ {d a}, d ∈ declarators p → a ∈ targeted t source d →
        d.address <:+ a.1.address := fun hd ha =>
      (Symbol.definitions_of_tree (hp.of_mem_children (mem_children_of_mem_declarators hd))
        (mem_targeted.1 ha).1).2
    exact hdd.mono (under hd ha) (under hd' hb)
  · exact pairwise_targeted t source p

theorem map_text_importSymbols (bindings : List Binding) :
    (Symbol.importSymbols bindings).map (·.1.node.text source) = bindingNames source bindings := by
  simp [Symbol.importSymbols, bindingNames]

theorem names_fate (t : Targets) (source : Bytes) {d : Place}
    (hk : d.node.kind = .variableDeclarator) :
    (fate t source d).names = (targeted t source d).map (·.1.node.text source) := by
  have hform := form_fate t source hk
  generalize fate t source d = f at hform
  cases hform with
  | keep htargeted =>
    rw [htargeted]
    rfl
  | name _ htargeted =>
    rw [htargeted]
    rfl
  | pattern _ _ _ htargeted | rebuild _ _ _ htargeted =>
    rw [htargeted, map_text_importSymbols]
    rfl

theorem names_fates (hk : p.node.kind = .variableDeclaration) :
    (fates t source p).flatMap (·.2.names) =
      (atStake t source p).map (·.1.node.text source) := by
  rw [atStake, if_pos hk, List.map_flatMap, fates, List.flatMap_map]
  refine List.flatMap_congr fun d hd => ?_
  exact names_fate t source (kind_of_mem_declarators hd)

theorem atStake_import (hk : p.node.kind = .importStatement) :
    atStake t source p =
      Symbol.importSymbols (removedBindings t source (Binding.ofImport p)) := by
  have hdef : Symbol.definitions source p = Symbol.importSymbols (Binding.ofImport p) := by
    unfold Symbol.definitions
    rw [hk]
    rfl
  rw [atStake, if_neg (by simp [hk]), targeted, hdef, filter_importSymbols]

theorem atStake_singleton {name : Place} {kind : SymbolKind}
    (hk : p.node.kind ≠ .variableDeclaration)
    (hdef : Symbol.definitions source p = [(name, kind)])
    (hholds : t.holds source kind name.node = true) : atStake t source p = [(name, kind)] := by
  rw [atStake, if_neg hk, targeted, hdef]
  simp [hholds]

theorem mem_atStake (hk : p.node.kind = .variableDeclaration) :
    b ∈ atStake t source p ↔ ∃ d ∈ declarators p, b ∈ targeted t source d := by
  rw [atStake, if_pos hk, List.mem_flatMap]

/-- A deletion takes what is at stake, all of it below the place. -/
theorem IsTarget.takes {target : Place} {withSemicolon : Bool}
    (h : IsTarget p target withSemicolon) (hw : WellFormed source tree) (hp : Place.Of tree p)
    (hb : b ∈ atStake t source p) :
    (∃ e ∈ [deletion source target withSemicolon],
      e.start ≤ b.1.node.start ∧ b.1.node.stop ≤ e.stop) ∧
        ∃ r ∈ [p], r.address <:+ b.1.address := by
  obtain ⟨hbof, hsuffix, -⟩ := atStake_of_tree hp hb
  have hcovers := h.deletion_covers hw hp
  have hin := hbof.within hp hw.isLaidOut hsuffix
  exact ⟨⟨_, List.mem_singleton_self _, hcovers.1.trans hin.1, hin.2.trans hcovers.2⟩,
    p, List.mem_singleton_self _, hsuffix⟩

/-- If no declarator goes, each symbol at stake is in a pattern that is rebuilt. -/
theorem exists_pattern {d : Place} (hw : WellFormed source tree) (hp : Place.Of tree p)
    (hd : d ∈ declarators p) (hdrop : (fates t source p).any (·.2.isDrop) = false)
    (hb : b ∈ targeted t source d) :
    ∃ e, (fate t source d).pattern? = some e ∧ e.start ≤ b.1.node.start ∧
      b.1.node.stop ≤ e.stop := by
  have hof := hp.of_mem_children (mem_children_of_mem_declarators hd)
  have hform := form_fate t source (kind_of_mem_declarators hd)
  have hstays : (fate t source d).isDrop = false := by
    have hmem : (d, fate t source d) ∈ fates t source p := mem_fates.2 ⟨hd, rfl⟩
    simpa using List.any_eq_false.1 hdrop _ hmem
  generalize fate t source d = f at hform hstays
  cases hform with
  | keep hnone => simp [hnone] at hb
  | name | pattern => cases hstays
  | rebuild hname hremoved _ htargeted =>
    have hpof := hof.of_mem_children (Place.mem_children_of_child? hname)
    rw [htargeted] at hb
    obtain ⟨binding, hbinding, rfl⟩ := Symbol.mem_importSymbols.1 hb
    rw [hremoved, mem_removedBindings] at hbinding
    obtain ⟨hbof, hsuffix⟩ := Binding.ofPattern_below hpof hbinding.1
    exact ⟨_, rfl, hbof.within hpof hw.isLaidOut hsuffix⟩

/-- Each symbol at stake is in an edit and below a place that is replaced. -/
theorem Form.takes (h : Form t source p c) (hw : WellFormed source tree) (hp : Place.Of tree p)
    (hne : c ≠ {}) (hb : b ∈ atStake t source p) :
    (∃ e ∈ c.edits, e.start ≤ b.1.node.start ∧ b.1.node.stop ≤ e.stop) ∧
      ∃ r ∈ c.replaced, r.address <:+ b.1.address := by
  cases h with
  | nothing => exact absurd rfl hne
  | function hk _ _ htarget | importStatement hk _ _ htarget =>
    exact (IsTarget.statement (by simp [hk]) htarget).takes hw hp hb
  | method hk hclass => exact (IsTarget.method hk hclass).takes hw hp hb
  | declaration hk _ _ _ htarget =>
    exact (IsTarget.statement (by simp [hk]) htarget).takes hw hp hb
  | clause hk hremoved _ _ hclause =>
    rw [atStake_import hk] at hb
    obtain ⟨binding, hbinding, rfl⟩ := Symbol.mem_importSymbols.1 hb
    obtain ⟨hbof, hsuffix⟩ := Binding.ofImport_below hp hclause (mem_removedBindings.1 hbinding).1
    have hcof := hp.of_mem_children (Binding.mem_children_of_clause? hclause)
    have hin := hbof.within hcof hw.isLaidOut hsuffix
    exact ⟨⟨_, List.mem_singleton_self _, hin⟩, _, List.mem_singleton_self _, hsuffix⟩
  | list hk =>
    obtain ⟨d, hd, hb⟩ := (mem_atStake hk).1 hb
    obtain ⟨first, -, last, -, hspan, hcovers⟩ :=
      declaratorSpan_covers t source hp hw.isLaidOut (List.ne_nil_of_mem hd)
    have hof := hp.of_mem_children (mem_children_of_mem_declarators hd)
    obtain ⟨hbof, hsuffix⟩ := Symbol.definitions_of_tree hof (mem_targeted.1 hb).1
    have hin := hbof.within hof hw.isLaidOut hsuffix
    rw [hspan]
    exact ⟨⟨_, List.mem_singleton_self _, (hcovers d hd).1.trans hin.1,
      hin.2.trans (hcovers d hd).2⟩, d, hd, hsuffix⟩
  | patterns hk _ _ _ _ hdrop =>
    obtain ⟨d, hd, hb⟩ := (mem_atStake hk).1 hb
    have hmem : (d, fate t source d) ∈ fates t source p := mem_fates.2 ⟨hd, rfl⟩
    have hof := hp.of_mem_children (mem_children_of_mem_declarators hd)
    obtain ⟨e, he, hin⟩ := exists_pattern hw hp hd hdrop hb
    refine ⟨⟨e, List.mem_filterMap.2 ⟨_, hmem, he⟩, hin⟩, d, ?_,
      (Symbol.definitions_of_tree hof (mem_targeted.1 hb).1).2⟩
    exact List.mem_map.2 ⟨_, List.mem_filter.2 ⟨hmem, by simp [he]⟩, rfl⟩

/-- What a change for other than a method names is what is at stake. -/
theorem Form.names_atStake (h : Form t source p c) (hk : p.node.kind ≠ .method) (hne : c ≠ {}) :
    c.names = (atStake t source p).map (·.1.node.text source) := by
  cases h with
  | nothing => exact absurd rfl hne
  | method hk' => exact absurd hk' hk
  | @function name _ hfunction hname hholds =>
    have hdef : Symbol.definitions source p = [(name, .function)] := by
      unfold Symbol.definitions
      rw [hfunction, hname]
      rfl
    rw [atStake_singleton (by simp [hfunction]) hdef hholds]
    rfl
  | importStatement himport hremoved | clause himport hremoved =>
    rw [atStake_import himport, map_text_importSymbols, ← hremoved]
  | declaration hvariables _ hnames | list hvariables _ _ hnames
  | patterns hvariables _ _ hnames => exact hnames.trans (names_fates hvariables)

/-- A change that names nothing is none. -/
theorem Form.names_ne_nil (h : Form t source p c) (hne : c ≠ {}) : c.names ≠ [] := by
  cases h with
  | nothing => exact absurd rfl hne
  | function | method => exact List.cons_ne_nil _ _
  | importStatement _ _ hnames | clause _ _ hnames => simpa [bindingNames] using hnames
  | declaration _ _ _ hnames | list _ _ _ _ hnames | patterns _ _ _ _ hnames => exact hnames

theorem exists_atStake_of_pattern (hw : WellFormed source tree) (hp : Place.Of tree p)
    (hk : p.node.kind = .variableDeclaration) {d : Place} (hd : d ∈ declarators p)
    (he : (fate t source d).pattern? = some e) :
    ∃ b ∈ atStake t source p, e.start ≤ b.1.node.start ∧ b.1.node.stop ≤ e.stop := by
  have hof := hp.of_mem_children (mem_children_of_mem_declarators hd)
  have hform := form_fate t source (kind_of_mem_declarators hd)
  generalize fate t source d = f at hform he
  cases hform with
  | keep | name | pattern => cases he
  | rebuild hname hremoved hne htargeted =>
    cases he
    have hpof := hof.of_mem_children (Place.mem_children_of_child? hname)
    obtain ⟨binding, hbinding⟩ := List.exists_mem_of_ne_nil _ hne
    have hmem := hbinding
    rw [hremoved, mem_removedBindings] at hmem
    obtain ⟨hbof, hsuffix⟩ := Binding.ofPattern_below hpof hmem.1
    have hin := hbof.within hpof hw.isLaidOut hsuffix
    refine ⟨(binding.name, .importBinding), (mem_atStake hk).2 ⟨d, hd, ?_⟩, hin⟩
    rw [htargeted]
    exact Symbol.mem_importSymbols.2 ⟨binding, hbinding, rfl⟩

/-- Each edit for other than a method takes a symbol that is at stake. -/
theorem Form.exists_atStake (h : Form t source p c) (hw : WellFormed source tree)
    (hp : Place.Of tree p) (hk : p.node.kind ≠ .method) (he : e ∈ c.edits) :
    ∃ b ∈ atStake t source p, e.start ≤ b.1.node.start ∧ b.1.node.stop ≤ e.stop := by
  have hne := ne_nothing_of_edit he
  have hstake : atStake t source p ≠ [] := by
    have hnames := h.names_ne_nil hne
    rwa [h.names_atStake hk hne, ne_eq, List.map_eq_nil_iff] at hnames
  obtain ⟨b, hb⟩ := List.exists_mem_of_ne_nil _ hstake
  -- A lone edit takes whatever is at stake.
  have single : ∀ {e'}, c.edits = [e'] →
      ∃ b ∈ atStake t source p, e.start ≤ b.1.node.start ∧ b.1.node.stop ≤ e.stop := by
    intro e' hedits
    obtain ⟨⟨e'', he'', hin⟩, -⟩ := h.takes hw hp hne hb
    rw [hedits, List.mem_singleton] at he he''
    rw [he, ← he'']
    exact ⟨b, hb, hin⟩
  cases h with
  | nothing => cases he
  | method hk' => exact absurd hk' hk
  | function | importStatement | clause | declaration | list => exact single rfl
  | patterns hk =>
    obtain ⟨f, hf, he⟩ := List.mem_filterMap.1 he
    obtain ⟨hd, hfate⟩ := mem_fates.1 hf
    exact exists_atStake_of_pattern hw hp hk hd (hfate ▸ he)

end Deadwood.Plan
