import Deadwood.Proofs.Removal.Edit
import Deadwood.Proofs.Removal.Rebuild
import Deadwood.Proofs.Removal.Walk

/-!
The edits of a plan are compatible: they merge without a conflict. A rebuilt part and a place that
the walk comes to later lie apart, and a deletion covers what it touches, so it swallows the edits
in its range.
-/
namespace Deadwood.Plan

variable {t : Targets} {source : Bytes} {tree : Node} {p q : Place} {c : Change}

/-- A token has nothing to contribute. -/
theorem Form.eq_nothing_of_isLeaf (h : Form t source p c) (hleaf : p.node.isLeaf = true) :
    c = {} := by
  have hchild : ∀ {q}, q ∉ p.children := fun hq => by
    rw [not_isLeaf_of_mem_children hq] at hleaf
    cases hleaf
  have hnone : declarators p = [] := List.eq_nil_iff_forall_not_mem.2 fun d hd =>
    hchild (mem_children_of_mem_declarators hd)
  cases h with
  | nothing => rfl
  | function _ hname | method _ _ hname => exact absurd (Place.mem_children_of_child? hname) hchild
  | importStatement _ hremoved hne | clause _ hremoved hne =>
    obtain ⟨b, hb⟩ := List.exists_mem_of_ne_nil _ hne
    rw [hremoved, mem_removedBindings] at hb
    obtain ⟨clause, -, hclause, -⟩ := Binding.mem_ofImport.1 hb.1
    exact absurd (Binding.mem_children_of_clause? hclause) hchild
  | declaration _ _ hnames hne | list _ _ _ hnames hne | patterns _ _ _ hnames hne =>
    simp [hnames, fates, hnone] at hne

/-- A part that is replaced has nothing to contribute itself. -/
theorem Form.eq_nothing_of_replaced {c' : Change} {r : Place} (h : Form t source p c)
    (hr : r ∈ c.replaced) (hne : r ≠ p) (h' : Form t source r c') : c' = {} := by
  have hkind : r.node.kind = .variableDeclarator ∨ r.node.kind = .other := by
    cases h with
    | nothing => cases hr
    | function | method | importStatement | declaration => simp [hne] at hr
    | clause _ _ _ _ hclause =>
      rw [List.mem_singleton] at hr
      have htype := List.find?_some hclause
      rw [← hr, decide_eq_true_eq] at htype
      exact .inr (by rw [Node.kind, htype]; rfl)
    | list => exact .inl (kind_of_mem_declarators hr)
    | patterns =>
      obtain ⟨f, hf, rfl⟩ := List.mem_map.1 hr
      exact .inl (kind_of_mem_declarators (mem_fates.1 (List.mem_of_mem_filter hf)).1)
  cases h' with
  | nothing => rfl
  | function hk | method hk | importStatement hk | declaration hk | clause hk | list hk
  | patterns hk => simp [hk] at hkind

theorem Form.of_tree_replaced (h : Form t source p c) (hp : Place.Of tree p) {r : Place}
    (hr : r ∈ c.replaced) : Place.Of tree r := by
  rcases h.replaced_cases hr with rfl | hr
  · exact hp
  · exact hp.of_mem_children hr

theorem Form.start_lt (h : Form t source p c) (hw : WellFormed source tree)
    (hg : Grammatical tree) (hp : Place.Of tree p) {e : Edit} (he : e ∈ c.edits) :
    p.node.start < p.node.stop := by
  refine start_lt_of_not_isLeaf hw.isLaidOut hg hp ?_
  rw [← Bool.not_eq_true]
  intro hleaf
  rw [h.eq_nothing_of_isLeaf hleaf] at he
  cases he

namespace Step

/-- Two steps of a walk, the later of which contributes something. -/
structure Later (t : Targets) (source : Bytes) (tree : Node) (x y : Step) : Prop where
  of_tree : Place.Of tree x.1
  of_tree' : Place.Of tree y.1
  form : Form t source x.1 x.2
  form' : Form t source y.1 y.2
  leads : Leads x y
  ne_nothing : y.2 ≠ {}

namespace Later

variable {x y : Step} {e : Edit} {core : Place}

/-- What a step replaced is not above a later step. -/
theorem not_suffix (h : Later t source tree x y) {r : Place} (hr : r ∈ x.2.replaced) :
    ¬ r.address <:+ y.1.address := by
  intro hsuffix
  obtain rfl := (h.form.of_tree_replaced h.of_tree hr).eq_of_address h.of_tree'
    (h.leads.2 r hr hsuffix)
  refine h.ne_nothing (h.form.eq_nothing_of_replaced hr ?_ h.form')
  intro heq
  exact h.leads.1.ne (congrArg Place.address heq).symm

/-- A rebuilt part is not above a later step. -/
theorem not_core_suffix (h : Later t source tree x y) (hg : Grammatical tree)
    (hcore : RebuildsIn source tree x.1 x.2 e core) : ¬ core.address <:+ y.1.address := by
  rcases hcore.replaced with ⟨hr, -⟩ | ⟨rfl, hk, hreplaced⟩
  · exact h.not_suffix hr
  · intro hsuffix
    rcases h.of_tree.eq_or_below h.of_tree' hsuffix with heq | ⟨i, n, hi, hbelow⟩
    · exact h.leads.1.ne (congrArg Place.address heq).symm
    -- The later step is a token next to the declarators or lies below one of them.
    rcases hg.declared _ h.of_tree.mem_nodes hk n (List.mem_of_getElem? hi) with hleaf | hd
    · have heq := (h.of_tree.child hi).eq_of_isLeaf h.of_tree' hleaf hbelow
      exact h.ne_nothing (h.form'.eq_nothing_of_isLeaf (heq ▸ hleaf))
    · refine h.not_suffix ?_ hbelow
      rw [hreplaced, declarators, List.mem_filter, Place.namedChildren, List.mem_filter]
      exact ⟨⟨Place.mem_children.2 ⟨i, n, hi, rfl⟩, hd.1⟩, decide_eq_true hd.2⟩

/-- A later step is not above what a step replaced. -/
theorem not_suffix_replaced (h : Later t source tree x y) {r : Place} (hr : r ∈ x.2.replaced) :
    ¬ y.1.address <:+ r.address := by
  intro hsuffix
  rcases h.form.replaced_cases hr with rfl | hchild
  · exact h.leads.1.not_suffix' hsuffix
  · obtain ⟨i, hi⟩ := Place.address_of_mem_children hchild
    rw [hi, List.suffix_cons_iff, ← hi] at hsuffix
    rcases hsuffix with heq | hsuffix
    · exact h.not_suffix hr (heq ▸ List.suffix_rfl)
    · exact h.leads.1.not_suffix' hsuffix

/-- A rebuilt part and a later step lie apart. -/
theorem core_apart (h : Later t source tree x y) (hw : WellFormed source tree)
    (hg : Grammatical tree) (hcore : RebuildsIn source tree x.1 x.2 e core) :
    core.node.stop ≤ y.1.node.start ∨ y.1.node.stop ≤ core.node.start := by
  refine hcore.of_tree.apart h.of_tree' hw.isLaidOut (h.not_core_suffix hg hcore) ?_
  rcases hcore.replaced with ⟨hr, -⟩ | ⟨rfl, -⟩
  · exact h.not_suffix_replaced hr
  · exact h.leads.1.not_suffix'

end Later

end Step

theorem RebuildsIn.within_place {core : Place} {e : Edit} (hw : WellFormed source tree)
    (hp : Place.Of tree p) (h : RebuildsIn source tree p c e core) :
    p.node.start ≤ e.start ∧ e.stop ≤ p.node.stop := by
  have hsuffix : p.address <:+ core.address := by
    rcases h.replaced with ⟨-, hchild⟩ | ⟨rfl, -⟩
    · exact Place.suffix_of_mem_children hchild
    · exact List.suffix_rfl
  have hin := h.of_tree.within hp hw.isLaidOut hsuffix
  exact ⟨hin.1.trans h.within.1, h.within.2.trans hin.2⟩

/-- A deletion covers its place. -/
theorem IsTarget.deletion_covers {withSemicolon : Bool} (h : IsTarget p target withSemicolon)
    (hw : WellFormed source tree) (hp : Place.Of tree p) :
    (deletion source target withSemicolon).start ≤ p.node.start ∧
      p.node.stop ≤ (deletion source target withSemicolon).stop := by
  have hcovers := Range.covers hw (h.of_tree hp) h.isListed withSemicolon
  have hin := hp.within (h.of_tree hp) hw.isLaidOut h.address_suffix
  exact ⟨hcovers.1.trans hin.1, hin.2.trans hcovers.2⟩

/-- A rebuilding edit below a place that a deletion does not reach from above is outside its range
or swallowed. -/
theorem IsTarget.compatible {withSemicolon : Bool} (h : IsTarget p target withSemicolon)
    (hw : WellFormed source tree) (hp : Place.Of tree p) (hq : Place.Of tree q) {e : Edit}
    (he : q.node.start ≤ e.start ∧ e.stop ≤ q.node.stop) (hne : e.start < e.stop)
    (hlt : p.node.start < p.node.stop) (hnot : ¬ q.address <:+ p.address)
    (hapart : q.node.stop ≤ p.node.start ∨ p.node.stop ≤ q.node.start) :
    Edit.Compatible (deletion source target withSemicolon) e := by
  have hcovers := h.deletion_covers hw hp
  have hreach := Range.apart_or_below hw (h.of_tree hp) h.isListed hq (by omega)
    (fun r hr hsuffix => hnot ((hsuffix.trans (Place.suffix_of_parent hr)).trans h.address_suffix))
    withSemicolon
  have hrange : (deletion source target withSemicolon).start =
      (Range.ofRemoval source target withSemicolon).start ∧
      (deletion source target withSemicolon).stop =
        (Range.ofRemoval source target withSemicolon).stop := ⟨rfl, rfl⟩
  rcases hreach with hr | hr | ⟨s, hs, -, hsuffix, hstart, hstop⟩
  · exact .inr (.inr (.inl (by omega)))
  · exact .inr (.inl (by omega))
  · have hin := hq.within hs hw.isLaidOut hsuffix
    exact .inr (.inr (.inr (.inl ⟨rfl, by omega, by omega, by omega⟩)))

/-- A new pattern takes the place of the old one in its declarator. -/
theorem pattern_within {d : Place} {e : Edit} (hw : WellFormed source tree)
    (hp : Place.Of tree p) (hd : d ∈ declarators p)
    (he : (fate t source d).pattern? = some e) :
    d.node.start ≤ e.start ∧ e.stop ≤ d.node.stop := by
  have hof := hp.of_mem_children (mem_children_of_mem_declarators hd)
  have hform := form_fate t source (kind_of_mem_declarators hd)
  generalize fate t source d = f at he hform
  cases hform with
  | keep | name | pattern => cases he
  | rebuild hname =>
    cases he
    have hchild := Place.mem_children_of_child? hname
    exact hof.covers_children hw.isLaidOut hchild

/-- Edits of one change lie apart. -/
theorem Form.pairwise_edits (h : Form t source p c) (hw : WellFormed source tree)
    (hp : Place.Of tree p) : c.edits.Pairwise Edit.Compatible := by
  cases h with
  | nothing => exact List.Pairwise.nil
  | function | method | importStatement | clause | declaration | list =>
    exact List.pairwise_singleton _ _
  | patterns =>
    rw [List.pairwise_filterMap, fates, List.pairwise_map]
    refine (pairwise_declarators hp hw.isLaidOut).imp_of_mem ?_
    intro d d' hd hd' hdd e he e' he'
    have hin := pattern_within hw hp hd he
    have hin' := pattern_within hw hp hd' he'
    exact .inr (.inl (hin.2.trans (hdd.trans hin'.1)))

/-- The edits of two steps are compatible. -/
theorem Step.Later.compatible {x y : Step} (h : Later t source tree x y)
    (hw : WellFormed source tree) (hg : Grammatical tree) {e e' : Edit} (he : e ∈ x.2.edits)
    (he' : e' ∈ y.2.edits) : Edit.Compatible e e' := by
  have hlt := h.form.start_lt hw hg h.of_tree he
  have hlt' := h.form'.start_lt hw hg h.of_tree' he'
  -- Deletions merge with each other; a deletion and a rebuilt part are apart or one swallows the
  -- other; two rebuilt parts are apart.
  rcases h.form.edit_cases hw hg h.of_tree he with ⟨target, sc, ht, hedits, hr⟩ | ⟨core, hcore⟩
  · rw [hedits, List.mem_singleton] at he
    rcases h.form'.edit_cases hw hg h.of_tree' he' with ⟨_, _, _, hedits', -⟩ | ⟨core', hcore'⟩
    · rw [hedits', List.mem_singleton] at he'
      exact .inl ⟨he ▸ rfl, he' ▸ rfl⟩
    · have hnot := h.not_suffix (hr ▸ List.mem_singleton_self _)
      have hnot' := h.leads.1.not_suffix'
      exact he ▸ ht.compatible hw h.of_tree h.of_tree' (hcore'.within_place hw h.of_tree')
        hcore'.start_lt hlt hnot' (h.of_tree'.apart h.of_tree hw.isLaidOut hnot' hnot)
  · have hapart := h.core_apart hw hg hcore
    rcases h.form'.edit_cases hw hg h.of_tree' he' with ⟨target, sc, ht, hedits', -⟩ | ⟨_, hcore'⟩
    · rw [hedits', List.mem_singleton] at he'
      exact he' ▸ (ht.compatible hw h.of_tree' hcore.of_tree hcore.within hcore.start_lt hlt'
        (h.not_core_suffix hg hcore) hapart).symm
    · have hin := hcore.within
      have hin' := hcore'.within_place hw h.of_tree'
      rcases hapart with hapart | hapart
      · exact .inr (.inl (by omega))
      · exact .inr (.inr (.inl (by omega)))

theorem Form.start_lt_edit (h : Form t source p c) (hw : WellFormed source tree)
    (hg : Grammatical tree) (hp : Place.Of tree p) {e : Edit} (he : e ∈ c.edits) :
    e.start < e.stop := by
  rcases h.edit_cases hw hg hp he with ⟨target, sc, ht, hedits, -⟩ | ⟨core, hcore⟩
  · have hlt := h.start_lt hw hg hp he
    have hcovers := ht.deletion_covers hw hp
    rw [hedits, List.mem_singleton] at he
    subst he
    omega
  · exact hcore.start_lt

namespace Step.From

variable {s : Progress} {steps : List Step}

theorem pairwise_edits (h : From t source tree s steps) (hw : WellFormed source tree)
    (hg : Grammatical tree) : (steps.flatMap (·.2.edits)).Pairwise Edit.Compatible := by
  rw [List.pairwise_flatMap]
  refine ⟨fun x hx => ?_, h.leads.imp_of_mem ?_⟩
  · exact (form_of_change (h.change_eq x hx)).pairwise_edits hw (h.of_tree x hx)
  · intro x y hx hy hxy e he e' he'
    have hlater : Later t source tree x y :=
      { of_tree := h.of_tree x hx
        of_tree' := h.of_tree y hy
        form := form_of_change (h.change_eq x hx)
        form' := form_of_change (h.change_eq y hy)
        leads := hxy
        ne_nothing := fun hnone => by simp [hnone] at he' }
    exact hlater.compatible hw hg he he'

theorem exists_merge (h : From t source tree s steps) (hw : WellFormed source tree)
    (hg : Grammatical tree) : ∃ merged, Edit.merge (steps.flatMap (·.2.edits)) = .ok merged := by
  refine Edit.exists_merge_of_compatible (h.pairwise_edits hw hg) ?_
  intro e he
  obtain ⟨x, hx, he⟩ := List.mem_flatMap.1 he
  exact (form_of_change (h.change_eq x hx)).start_lt_edit hw hg (h.of_tree x hx) he

end Step.From

/-- The edits of a plan have no conflict. -/
theorem exists_apply (hw : WellFormed source tree) (hg : Grammatical tree) {plan : Plan}
    (h : ofTree t source tree = .ok plan) : ∃ text, Edit.apply source plan.edits = .ok text := by
  obtain ⟨steps, rfl, hsteps⟩ := exists_steps h
  obtain ⟨merged, hmerged⟩ := hsteps.exists_merge hw hg
  refine ⟨Edit.spliceAll source merged, ?_⟩
  rw [Step.edits_run, List.nil_append, Edit.apply, hmerged]
  rfl

end Deadwood.Plan
