import Deadwood.Proofs.Removal.Report

/-!
Edits around a variable declaration and inside it. Beside the edits of the declaration itself, those
of a plan lie outside the declaration or inside a declarator that it leaves alone
(`liesAround_of_reached`).
-/
namespace Deadwood

/-- Statements and members of a class inside a declarator stand between braces of it, so that
something of it comes before and behind. -/
def Enclosed (tree : Node) : Prop :=
  ∀ p ∈ Place.preorder tree, p.isListed = true → p.node.type ∉ ["\x7b", "\x7d"] →
    ∀ d ∈ Place.preorder tree, d.node.type = "variable_declarator" → d.address <:+ p.address →
      (∃ n ∈ tree.preorder, n.start < n.stop ∧ d.node.start ≤ n.start ∧ n.stop ≤ p.node.start) ∧
      ∃ n ∈ tree.preorder, n.start < n.stop ∧ p.node.stop ≤ n.start ∧ n.stop ≤ d.node.stop

instance (tree : Node) : Decidable (Enclosed tree) :=
  inferInstanceAs (Decidable (∀ p ∈ Place.preorder tree, _ → _ → ∀ d ∈ Place.preorder tree,
    _ → _ → (∃ n ∈ tree.preorder, _ ∧ _ ∧ _) ∧ ∃ n ∈ tree.preorder, _ ∧ _ ∧ _))

namespace Plan

variable {t : Targets} {source : Bytes} {tree : Node} {p q d target : Place} {c : Change}
  {withSemicolon : Bool}

theorem IsTarget.eq_or_export (h : IsTarget p target withSemicolon) :
    target = p ∨ (p.parent? = some target ∧ target.node.type = "export_statement") := by
  cases h with
  | method => exact .inl rfl
  | statement _ h =>
    unfold statementTarget? at h
    cases hparent : p.parent? with
    | none => simp [hparent] at h
    | some parent =>
      simp only [hparent] at h
      split at h
      · next htype =>
        split at h
        · cases h
        · split at h
          · cases h
            exact .inr ⟨rfl, htype⟩
          · cases h
      · split at h
        · cases h
          exact .inl rfl
        · cases h

theorem IsTarget.type_not_brace (h : IsTarget p target withSemicolon) :
    target.node.type ∉ ["\x7b", "\x7d"] := by
  have hkind : target.node.type ∈ ["\x7b", "\x7d"] → target.node.kind = .other := by
    intro hmem
    rw [List.mem_pair] at hmem
    rcases hmem with htype | htype <;> · rw [Node.kind, htype]; rfl
  intro hmem
  rcases h.eq_or_export with rfl | ⟨-, htype⟩
  · cases h with
    | statement hk => simp [hkind hmem] at hk
    | method hk => simp [hkind hmem] at hk
  · simp [htype] at hmem

/-- What goes along with a target is no brace. -/
theorem IsTarget.type_not_brace_of_goesAlong (h : IsTarget p target withSemicolon) {s : Place}
    (hs : Range.GoesAlong target withSemicolon s) : s.node.type ∉ ["\x7b", "\x7d"] := by
  rcases hs with rfl | ⟨-, htype⟩ | ⟨-, -, htype⟩
  · exact h.type_not_brace
  · simp [htype]
  · simp [htype]

/-- A target for a place strictly below a declarator is strictly below it. -/
theorem IsTarget.below_declarator (h : IsTarget p target withSemicolon) (hp : Place.Of tree p)
    (hd : Place.Of tree d) (htype : d.node.type = "variable_declarator")
    (hsuffix : d.address <:+ p.address) (hne : d.address ≠ p.address) :
    d.address <:+ target.address ∧ d.address ≠ target.address := by
  rcases h.eq_or_export with rfl | ⟨hparent, hexport⟩
  · exact ⟨hsuffix, hne⟩
  · obtain ⟨hof, i, hi, -⟩ := Place.of_parent hp hparent
    rw [hi, Place.address_childAt, List.suffix_cons_iff, ← Place.address_childAt, ← hi] at hsuffix
    refine ⟨hsuffix.resolve_left hne, fun heq => ?_⟩
    rw [hd.eq_of_address hof heq, hexport] at htype
    exact absurd htype (by decide)

/-- A deletion inside a declarator stays inside. -/
theorem IsTarget.deletion_within (h : IsTarget p target withSemicolon) (hw : WellFormed source tree)
    (he : Enclosed tree) (hp : Place.Of tree p) (hd : Place.Of tree d)
    (htype : d.node.type = "variable_declarator") (hsuffix : d.address <:+ p.address)
    (hne : d.address ≠ p.address) :
    d.node.start ≤ (deletion source target withSemicolon).start ∧
      (deletion source target withSemicolon).stop ≤ d.node.stop := by
  obtain ⟨hbelow, hne'⟩ := h.below_declarator hp hd htype hsuffix hne
  have hlisted := h.isListed
  obtain ⟨r, k, m, hr, hk, rfl⟩ := Range.exists_childAt_of_isListed (h.of_tree hp) hlisted
  obtain ⟨i, j, first, last, hik, hkj, hi, hj, hwidens, halong⟩ :=
    Range.exists_ofRemoval hr hw.isLaidOut source hk withSemicolon
  rw [Place.address_childAt, List.suffix_cons_iff, ← Place.address_childAt] at hbelow
  have habove := hbelow.resolve_left hne'
  rw [Range.isListed_childAt] at hlisted
  -- The siblings at both ends of the deletion stand between braces themselves.
  have hsibling : ∀ {l s}, i ≤ l → l ≤ j → r.node.children[l]? = some s →
      r.childAt l s ∈ Place.preorder tree ∧ (r.childAt l s).isListed = true ∧
        (r.childAt l s).node.type ∉ ["\x7b", "\x7d"] ∧ d.address <:+ (r.childAt l s).address :=
    fun {l s} hil hlj hl => ⟨Place.mem_preorder.2 (hr.child hl),
      Range.isListed_childAt.trans hlisted,
      h.type_not_brace_of_goesAlong (halong l s hil hlj hl).1,
      habove.trans (List.suffix_cons l _)⟩
  have hdmem := Place.mem_preorder.2 hd
  obtain ⟨hmem, hlist, hbrace, hunder⟩ := hsibling le_rfl (hik.trans hkj) hi
  obtain ⟨⟨n, hn, hlt, hstart, hstop⟩, -⟩ := he _ hmem hlist hbrace d hdmem htype hunder
  obtain ⟨hmem', hlist', hbrace', hunder'⟩ := hsibling (hik.trans hkj) le_rfl hj
  obtain ⟨-, n', hn', hlt', hstart', hstop'⟩ := he _ hmem' hlist' hbrace' d hdmem htype hunder'
  have hfirst : n.stop ≤ source.length :=
    (hstop.trans ((hr.child hi).start_le_stop hw.isLaidOut)).trans (hw.stop_le_length (hr.child hi))
  have hleft := hwidens.stop_le_start hstop hfirst (hw.clearBefore _ hmem hlist n hn hlt hstop)
  have hright := hwidens.stop_le_start' hlt' hstart' (hstop'.trans (hw.stop_le_length hd))
    (hw.clearAfter _ hmem' hlist' n' hn' hlt' hstart')
  exact ⟨(hstart.trans hlt.le).trans hleft, (hright.trans hlt'.le).trans hstop'⟩

/-- A nonempty place that is not above what a deletion is for lies outside the deletion or in it. -/
theorem IsTarget.outside_or_covers (h : IsTarget p target withSemicolon)
    (hw : WellFormed source tree) (hp : Place.Of tree p) (hq : Place.Of tree q)
    (hlt : q.node.start < q.node.stop) (hnot : ¬ q.address <:+ p.address) :
    q.node.stop ≤ (deletion source target withSemicolon).start ∨
      (deletion source target withSemicolon).stop ≤ q.node.start ∨
      ((deletion source target withSemicolon).start ≤ q.node.start ∧
        q.node.stop ≤ (deletion source target withSemicolon).stop) := by
  rcases Range.apart_or_below hw (h.of_tree hp) h.isListed hq hlt
    (fun r hr hsuffix => hnot ((hsuffix.trans (Place.suffix_of_parent hr)).trans h.address_suffix))
    withSemicolon with hout | hout | ⟨s, hs, -, hsuffix, hstart, hstop⟩
  · exact .inl hout
  · exact .inr (.inl hout)
  · have hin := hq.within hs hw.isLaidOut hsuffix
    exact .inr (.inr ⟨hstart.trans hin.1, hin.2.trans hstop⟩)

theorem Form.eq_nothing_of_declarator (h : Form t source d c)
    (hk : d.node.kind = .variableDeclarator) : c = {} := by
  cases h with
  | nothing => rfl
  | function hk' | method hk' | importStatement hk' | declaration hk' | clause hk' | list hk'
  | patterns hk' => simp [hk] at hk'

/-- What a later step below a declaration is about lies in a declarator that the declaration leaves
alone. -/
theorem Step.Later.exists_declarator {x y : Step} (h : Step.Later t source tree x y)
    (hg : Grammatical tree) (hk : x.1.node.kind = .variableDeclaration)
    (hsuffix : x.1.address <:+ y.1.address) :
    ∃ d ∈ declarators x.1, d ∉ x.2.replaced ∧ d.address <:+ y.1.address ∧
      d.address ≠ y.1.address := by
  rcases h.of_tree.eq_or_below h.of_tree' hsuffix with heq | ⟨i, n, hi, hbelow⟩
  · exact absurd (congrArg Place.address heq).symm h.leads.1.ne
  rcases hg.declared _ h.of_tree.mem_nodes hk n (List.mem_of_getElem? hi) with hleaf | hd
  · have heq := (h.of_tree.child hi).eq_of_isLeaf h.of_tree' hleaf hbelow
    exact absurd (h.form'.eq_nothing_of_isLeaf (heq ▸ hleaf)) h.ne_nothing
  · have hmem : x.1.childAt i n ∈ declarators x.1 := by
      rw [declarators, List.mem_filter, Place.namedChildren, List.mem_filter]
      exact ⟨⟨Place.mem_children.2 ⟨i, n, hi, rfl⟩, hd.1⟩, decide_eq_true hd.2⟩
    refine ⟨_, hmem, fun hr => h.not_suffix hr hbelow, hbelow, fun heq => ?_⟩
    have hsame := (h.of_tree.child hi).eq_of_address h.of_tree' heq
    exact h.ne_nothing (h.form'.eq_nothing_of_declarator (hsame ▸ kind_of_mem_declarators hmem))

/-- Of a change of a declaration, or outside the declaration, or in a declarator that the change
leaves alone. -/
def LiesAround (p : Place) (c : Change) (e : Edit) : Prop :=
  e ∈ c.edits ∨ e.stop ≤ p.node.start ∨ p.node.stop ≤ e.start ∨
    ∃ d ∈ declarators p, d ∉ c.replaced ∧ d.node.start ≤ e.start ∧ e.stop ≤ d.node.stop

theorem Step.From.liesAround {s : Progress} {steps : List Step}
    (h : Step.From t source tree s steps) (hw : WellFormed source tree) (hg : Grammatical tree)
    (he : Enclosed tree) (hx : (p, c) ∈ steps) (hk : p.node.kind = .variableDeclaration)
    (hne : c ≠ {}) (hlt : p.node.start < p.node.stop)
    (houtside : ∀ e ∈ steps.flatMap (·.2.edits), e.isDeletion = true →
      ¬ (e.start ≤ p.node.start ∧ p.node.stop ≤ e.stop)) {e : Edit}
    (hedit : e ∈ steps.flatMap (·.2.edits)) : LiesAround p c e := by
  obtain ⟨y, hy, hmem⟩ := List.mem_flatMap.1 hedit
  have hne' : y.2 ≠ {} := ne_nothing_of_edit hmem
  have hp := h.of_tree _ hx
  have hq := h.of_tree y hy
  have hcases := (form_of_change (h.change_eq y hy)).edit_cases hw hg hq hmem
  -- A deletion for a place that is not below the declaration leaves it alone.
  have hdeletion : ∀ {target withSemicolon}, IsTarget y.1 target withSemicolon →
      y.2.edits = [deletion source target withSemicolon] → ¬ p.address <:+ y.1.address →
      e.stop ≤ p.node.start ∨ p.node.stop ≤ e.start := by
    intro target withSemicolon ht hedits hnot
    rw [hedits, List.mem_singleton] at hmem
    subst hmem
    rcases ht.outside_or_covers hw hq hp hlt hnot with hout | hout | hin
    · exact .inr hout
    · exact .inl hout
    · exact absurd hin (houtside _ hedit rfl)
  rcases h.eq_or_leads hx hy with rfl | hxy | hyx
  · exact .inl hmem
  · have hlater := h.later hx hy hxy hne'
    rcases hxy.1 with ⟨hsuffix, -⟩ | hbefore
    · obtain ⟨d, hd, hr, hbelow, hne⟩ := hlater.exists_declarator hg hk hsuffix
      have hdof := hp.of_mem_children (mem_children_of_mem_declarators hd)
      refine .inr (.inr (.inr ⟨d, hd, hr, ?_⟩))
      rcases hcases with ⟨target, sc, ht, hedits, -⟩ | ⟨core, hcore⟩
      · rw [hedits, List.mem_singleton] at hmem
        rw [hmem]
        exact ht.deletion_within hw he hq hdof (type_of_mem_declarators hd) hbelow hne
      · have hin := hcore.within_place hw hq
        have hin' := hq.within hdof hw.isLaidOut hbelow
        exact ⟨hin'.1.trans hin.1, hin.2.trans hin'.2⟩
    · have hbehind := hp.stop_le_start hq hw.isLaidOut hbefore
      rcases hcases with ⟨target, sc, ht, hedits, -⟩ | ⟨core, hcore⟩
      · rcases hdeletion ht hedits hbefore.not_suffix with hout | hout
        · exact .inr (.inl hout)
        · exact .inr (.inr (.inl hout))
      · exact .inr (.inr (.inl (hbehind.trans (hcore.within_place hw hq).1)))
  · have hlater := h.later hy hx hyx hne
    rcases hcases with ⟨target, sc, ht, hedits, -⟩ | ⟨core, hcore⟩
    · rcases hdeletion ht hedits hyx.1.not_suffix' with hout | hout
      · exact .inr (.inl hout)
      · exact .inr (.inr (.inl hout))
    · rcases hlater.core_apart hw hg hcore with hout | hout
      · exact .inr (.inl (hcore.within.2.trans hout))
      · exact .inr (.inr (.inl (hout.trans hcore.within.1)))

theorem of_tree_of_reached {plan : Plan} (h : ofTree t source tree = .ok plan)
    (hp : p ∈ reached t source tree) : Place.Of tree p := by
  obtain ⟨steps, -, hsteps, hreached⟩ := exists_steps_reached h
  rw [hreached, List.mem_map] at hp
  obtain ⟨x, hx, rfl⟩ := hp
  exact hsteps.of_tree x hx

/-- The edits of a plan around a declaration that the walk comes to outside of any deletion. -/
theorem liesAround_of_reached (hw : WellFormed source tree) (hg : Grammatical tree)
    (he : Enclosed tree) {plan : Plan} (hplan : ofTree t source tree = .ok plan)
    (hp : p ∈ reached t source tree) (hk : p.node.kind = .variableDeclaration)
    (hlt : p.node.start < p.node.stop) (houtside : ∀ e ∈ plan.edits, e.isDeletion = true →
      ¬ (e.start ≤ p.node.start ∧ p.node.stop ≤ e.stop)) (hchange : change t source p = .ok c)
    (hne : c ≠ {}) : c.edits ⊆ plan.edits ∧ ∀ e ∈ plan.edits, LiesAround p c e := by
  obtain ⟨steps, rfl, hsteps, hx⟩ := exists_step_of_reached hplan hp hchange
  rw [Step.edits_run, List.nil_append] at houtside ⊢
  exact ⟨fun e he => List.mem_flatMap.2 ⟨_, hx, he⟩,
    fun e hedit => hsteps.liesAround hw hg he hx hk hne hlt houtside hedit⟩

end Plan

end Deadwood
