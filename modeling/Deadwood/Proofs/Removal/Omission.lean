import Deadwood.Proofs.Removal.Compatible

/-!
What a plan leaves out. The walk comes to every place that does not lie below a replaced one, so a
plan is empty exactly if no place has anything to contribute (`exists_ofTree_empty_iff`), and a place
whose change is not in the plan lies in a deletion or below a part that was written anew
(`recorded_or_below`).
-/
namespace Deadwood.Plan

variable {t : Targets} {source : Bytes} {tree : Node} {p : Place} {c : Change}

/-- A change without edits is no change. -/
theorem Form.eq_nothing_of_edits (h : Form t source p c) (hedits : c.edits = []) : c = {} := by
  cases h with
  | nothing => rfl
  | function | method | importStatement | clause | declaration | list => cases hedits
  | patterns _ _ _ hnames hne hdrop =>
    -- No declarator is dropped, so one that has names is rebuilt.
    obtain ⟨name, hname⟩ := List.exists_mem_of_ne_nil _ hne
    rw [hnames, List.mem_flatMap] at hname
    obtain ⟨f, hf, hname⟩ := hname
    rw [List.any_eq_false] at hdrop
    have hkept := hdrop f hf
    cases hfate : f.2 with
    | keep =>
      rw [hfate] at hname
      cases hname
    | drop names =>
      rw [hfate] at hkept
      exact absurd rfl hkept
    | rebuild names e =>
      have hmem : e ∈ (fates t source p).filterMap (·.2.pattern?) :=
        List.mem_filterMap.2 ⟨f, hf, by rw [hfate]; rfl⟩
      rw [show (fates t source p).filterMap (·.2.pattern?) = [] from hedits] at hmem
      cases hmem

/-- What a change replaces is its whole place, which it deletes, or parts among the children. -/
theorem Form.dropped_or_child (h : Form t source p c) {r : Place} (hr : r ∈ c.replaced) :
    (r = p ∧ ∃ target withSemicolon, IsTarget p target withSemicolon ∧
      deletion source target withSemicolon ∈ c.edits) ∨ r ∈ p.children := by
  cases h with
  | nothing => cases hr
  | function hk _ _ htarget | importStatement hk _ _ htarget | declaration hk _ _ _ htarget =>
    exact .inl ⟨List.mem_singleton.1 hr, _, _, .statement (by simp [hk]) htarget,
      List.mem_singleton_self _⟩
  | method hk hclass =>
    exact .inl ⟨List.mem_singleton.1 hr, _, _, .method hk hclass, List.mem_singleton_self _⟩
  | clause _ _ _ _ hclause =>
    rw [List.mem_singleton.1 hr]
    exact .inr (Binding.mem_children_of_clause? hclause)
  | list => exact .inr (mem_children_of_mem_declarators hr)
  | patterns =>
    obtain ⟨f, hf, rfl⟩ := List.mem_map.1 hr
    exact .inr (mem_children_of_mem_declarators (mem_fates.1 (List.mem_of_mem_filter hf)).1)

/-- One state of the walk holds all that another does. -/
structure Progress.Extends (s s' : Progress) : Prop where
  edits : s.plan.edits ⊆ s'.plan.edits
  replaced : s.replaced ⊆ s'.replaced

theorem Progress.Extends.refl (s : Progress) : s.Extends s := ⟨List.Subset.refl _, List.Subset.refl _⟩

theorem Progress.Extends.trans {s₁ s₂ s₃ : Progress} (h : s₁.Extends s₂) (h' : s₂.Extends s₃) :
    s₁.Extends s₃ :=
  ⟨List.Subset.trans h.edits h'.edits, List.Subset.trans h.replaced h'.replaced⟩

theorem Progress.extends_add (s : Progress) (c : Change) : s.Extends (s.add c) :=
  ⟨List.subset_append_left _ _, List.subset_append_left _ _⟩

/-- The walk is done with a place: its change is recorded, or it lies below what was replaced. -/
def Progress.Settles (t : Targets) (source : Bytes) (s : Progress) (p : Place) : Prop :=
  (∃ c, change t source p = .ok c ∧ c.edits ⊆ s.plan.edits) ∨
    ∃ a ∈ s.replaced, a <:+ p.address ∧ a ≠ p.address

theorem Progress.Settles.mono {s s' : Progress} (h : s.Settles t source p) (hs : s.Extends s') :
    s'.Settles t source p := by
  rcases h with ⟨c, hc, hsub⟩ | ⟨a, ha, hbelow⟩
  · exact .inl ⟨c, hc, List.Subset.trans hsub hs.edits⟩
  · exact .inr ⟨a, hs.replaced ha, hbelow⟩

mutual
theorem settles_walkFrom {above : List (Node × Nat)} {n : Node} {s s' : Progress}
    (h : Place.walkFrom (visit t source) enters above (.ok s) n = .ok s') :
    s.Extends s' ∧ ∀ p ∈ Place.preorderFrom above n, s'.Settles t source p := by
  cases n with
  | mk l cs =>
    rw [Place.walkFrom] at h
    cases hv : visit t source (.ok s) ⟨.mk l cs, above⟩ with
    | error fault => simp [hv, enters] at h
    | ok s₁ =>
      obtain ⟨c, hc, rfl⟩ := visit_eq_ok hv
      have hself : (s.add c).Settles t source ⟨.mk l cs, above⟩ :=
        .inl ⟨c, hc, List.subset_append_right _ _⟩
      simp only [hv] at h
      rw [Place.preorderFrom, List.forall_mem_cons]
      split at h
      · obtain ⟨hextends, hbelow⟩ := settles_walkAllFrom h
        exact ⟨(s.extends_add c).trans hextends, hself.mono hextends, hbelow⟩
      · next henters =>
        cases h
        refine ⟨s.extends_add c, hself, fun q hq => .inr ⟨Place.address ⟨.mk l cs, above⟩, ?_, ?_⟩⟩
        · simpa [enters] using henters
        · obtain ⟨j, -, hj⟩ := Place.suffix_of_mem_preorderAllFrom hq
          refine ⟨(List.suffix_cons j _).trans hj, fun heq => ?_⟩
          rw [← heq] at hj
          exact Address.not_cons_suffix j _ hj

theorem settles_walkAllFrom {parent : Node} {above : List (Node × Nat)} {i : Nat}
    {ns : List Node} {s s' : Progress}
    (h : Place.walkAllFrom (visit t source) enters parent above i (.ok s) ns = .ok s') :
    s.Extends s' ∧ ∀ p ∈ Place.preorderAllFrom parent above i ns, s'.Settles t source p := by
  cases ns with
  | nil =>
    cases h
    exact ⟨.refl s, by simp [Place.preorderAllFrom]⟩
  | cons n rest =>
    rw [Place.walkAllFrom] at h
    cases hw : Place.walkFrom (visit t source) enters ((parent, i) :: above) (.ok s) n with
    | error fault =>
      rw [hw, walkAllFrom_error] at h
      cases h
    | ok s₁ =>
      rw [hw] at h
      obtain ⟨hfirst, hsettled⟩ := settles_walkFrom hw
      obtain ⟨hrest, hothers⟩ := settles_walkAllFrom h
      refine ⟨hfirst.trans hrest, fun p hp => ?_⟩
      rw [Place.preorderAllFrom, List.mem_append] at hp
      rcases hp with hp | hp
      · exact (hsettled p hp).mono hrest
      · exact hothers p hp
end

/-- The steps of a plan's walk, and how it is done with every place. -/
theorem exists_settling_steps {plan : Plan} (h : ofTree t source tree = .ok plan) :
    ∃ steps, plan = (Step.run {} steps).plan ∧ Step.From t source tree {} steps ∧
      ∀ p ∈ Place.preorder tree, (Step.run {} steps).Settles t source p := by
  unfold ofTree Place.walk at h
  cases hw : Place.walkFrom (visit t source) enters [] (.ok {}) tree with
  | error fault => simp [hw, Except.map] at h
  | ok s =>
    simp only [hw, Except.map, Except.ok.injEq] at h
    obtain ⟨steps, rfl, hsteps, -⟩ := exists_steps_walkFrom .top (by simp) hw
    exact ⟨steps, h.symm, hsteps, (settles_walkFrom hw).2⟩

theorem Step.edits_subset {steps : List Step} {x : Step} (hx : x ∈ steps) :
    x.2.edits ⊆ (run {} steps).plan.edits := by
  intro e he
  rw [edits_run]
  exact List.mem_append_right _ (List.mem_flatMap.2 ⟨x, hx, he⟩)

/-- There is an empty plan exactly if no place has a change. -/
theorem exists_ofTree_empty_iff : (∃ plan, ofTree t source tree = .ok plan ∧ plan.edits = []) ↔
    ∀ p ∈ Place.preorder tree, change t source p = .ok {} := by
  constructor
  · rintro ⟨plan, hplan, hempty⟩ p hp
    obtain ⟨steps, rfl, hsteps, hsettles⟩ := exists_settling_steps hplan
    have hnothing : ∀ x ∈ steps, x.2 = {} := fun x hx =>
      (form_of_change (hsteps.change_eq x hx)).eq_nothing_of_edits
        (List.subset_nil.1 (hempty ▸ Step.edits_subset hx))
    rcases hsettles p hp with ⟨c, hc, hsub⟩ | ⟨a, ha, -⟩
    · rw [hempty] at hsub
      rw [hc, (form_of_change hc).eq_nothing_of_edits (List.subset_nil.1 hsub)]
    · rcases Step.mem_replaced_run.1 ha with ha | ⟨x, hx, r, hr, -⟩
      · cases ha
      · rw [hnothing x hx] at hr
        cases hr
  · intro h
    have hchanges : ∀ p, Place.Of tree p → ∃ c, change t source p = .ok c := fun p hp =>
      ⟨{}, h p (Place.mem_preorder.2 hp)⟩
    obtain ⟨plan, hplan⟩ := exists_ofTree hchanges
    refine ⟨plan, hplan, ?_⟩
    obtain ⟨steps, rfl, hsteps⟩ := exists_steps hplan
    rw [Step.edits_run, List.append_eq_nil_iff, List.flatMap_eq_nil_iff]
    refine ⟨rfl, fun x hx => ?_⟩
    have hchange := (hsteps.change_eq x hx).symm.trans
      (h x.1 (Place.mem_preorder.2 (hsteps.of_tree x hx)))
    rw [Except.ok.inj hchange]

/-- A part of a declaration that the plan writes anew. -/
def IsRewritten (t : Targets) (source : Bytes) (tree : Node) (plan : Plan) (r : Place) : Prop :=
  ∃ p c, Place.Of tree p ∧ change t source p = .ok c ∧ c.edits ⊆ plan.edits ∧
    r ∈ c.replaced ∧ r ∈ p.children

/-- What a plan leaves out goes with a deletion or stands in what was written anew. -/
theorem recorded_or_below (hw : WellFormed source tree) {plan : Plan}
    (h : ofTree t source tree = .ok plan) (hp : p ∈ Place.preorder tree) :
    (∃ c, change t source p = .ok c ∧ c.edits ⊆ plan.edits) ∨
    (∃ e ∈ plan.edits, e.isDeletion = true ∧ e.start ≤ p.node.start ∧ p.node.stop ≤ e.stop) ∨
    ∃ r, IsRewritten t source tree plan r ∧ r.address <:+ p.address ∧ r.address ≠ p.address := by
  obtain ⟨steps, rfl, hsteps, hsettles⟩ := exists_settling_steps h
  rcases hsettles p hp with hrecorded | ⟨a, ha, hsuffix, hne⟩
  · exact .inl hrecorded
  · obtain ⟨x, hx, r, hr, rfl⟩ := (Step.mem_replaced_run.1 ha).resolve_left (by simp)
    have hof := hsteps.of_tree x hx
    have hchange := hsteps.change_eq x hx
    rcases (form_of_change hchange).dropped_or_child hr with
      ⟨rfl, target, withSemicolon, htarget, hmem⟩ | hchild
    · have hcovers := htarget.deletion_covers hw hof
      have hin := (Place.mem_preorder.1 hp).within hof hw.isLaidOut hsuffix
      exact .inr (.inl ⟨_, Step.edits_subset hx hmem, rfl, hcovers.1.trans hin.1,
        hin.2.trans hcovers.2⟩)
    · exact .inr (.inr ⟨r, ⟨x.1, x.2, hof, hchange, Step.edits_subset hx, hr, hchild⟩, hsuffix,
        hne⟩)

end Deadwood.Plan
