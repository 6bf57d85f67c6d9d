import Deadwood.Proofs.Removal.Change
import Deadwood.Proofs.Syntax.Visited

/-!
The walk that makes a plan, as the steps it takes. A step comes after those before it in document
order and never goes below what one of them replaced, and the plan is the sum of the steps
(`exists_steps`).
-/
namespace Deadwood.Plan

variable {t : Targets} {source : Bytes} {tree : Node} {p : Place} {c : Change}

/-- A change replaces its place or children of it. -/
theorem Form.replaced_cases (h : Form t source p c) {r : Place} (hr : r ∈ c.replaced) :
    r = p ∨ r ∈ p.children := by
  cases h with
  | nothing => cases hr
  | function | method | importStatement | declaration => exact .inl (List.mem_singleton.1 hr)
  | clause _ _ _ _ hclause =>
    rw [List.mem_singleton] at hr
    subst hr
    exact .inr (Binding.mem_children_of_clause? hclause)
  | list => exact .inr (mem_children_of_mem_declarators hr)
  | patterns =>
    obtain ⟨f, hf, rfl⟩ := List.mem_map.1 hr
    exact .inr (mem_children_of_mem_declarators (mem_fates.1 (List.mem_of_mem_filter hf)).1)

theorem Form.suffix_of_mem_replaced (h : Form t source p c) {r : Place} (hr : r ∈ c.replaced) :
    p.address <:+ r.address := by
  rcases h.replaced_cases hr with rfl | hr
  · exact List.suffix_rfl
  · exact Place.suffix_of_mem_children hr

/-- A place that was visited, with what it contributed. -/
abbrev Step := Place × Change

namespace Step

/-- The later step comes later in the document, and not below what the earlier replaced. -/
def Leads (x y : Step) : Prop :=
  Address.Precedes x.1.address y.1.address ∧
    ∀ r ∈ x.2.replaced, r.address <:+ y.1.address → r.address = y.1.address

def run (s : Progress) (steps : List Step) : Progress := steps.foldl (fun s x => s.add x.2) s

theorem run_append (s : Progress) (a b : List Step) : run s (a ++ b) = run (run s a) b :=
  List.foldl_append

theorem mem_replaced_run {s : Progress} {steps : List Step} {a : Address} :
    a ∈ (run s steps).replaced ↔
      a ∈ s.replaced ∨ ∃ x ∈ steps, ∃ r ∈ x.2.replaced, r.address = a := by
  induction steps generalizing s with
  | nil => simp [run]
  | cons x rest ih =>
    rw [run, List.foldl_cons, ← run, ih]
    simp [Progress.add, or_assoc]

/-- Steps from a state, none below what was replaced before. -/
structure From (t : Targets) (source : Bytes) (tree : Node) (s : Progress) (steps : List Step) :
    Prop where
  of_tree : ∀ x ∈ steps, Place.Of tree x.1
  change_eq : ∀ x ∈ steps, change t source x.1 = .ok x.2
  fresh : ∀ x ∈ steps, ∀ a ∈ s.replaced, a <:+ x.1.address → a = x.1.address
  leads : steps.Pairwise Leads

/-- Steps follow steps if what the earlier ones replaced is not above the later ones. -/
theorem From.append {s : Progress} {a b : List Step} (ha : From t source tree s a)
    (hb : From t source tree (run s a) b)
    (hab : ∀ x ∈ a, ∀ y ∈ b, Address.Precedes x.1.address y.1.address) :
    From t source tree s (a ++ b) where
  of_tree x hx := (List.mem_append.1 hx).elim (ha.of_tree x) (hb.of_tree x)
  change_eq x hx := (List.mem_append.1 hx).elim (ha.change_eq x) (hb.change_eq x)
  fresh x hx a h := (List.mem_append.1 hx).elim (fun hx => ha.fresh x hx a h)
    fun hx => hb.fresh x hx a (mem_replaced_run.2 (.inl h))
  leads := by
    refine List.pairwise_append.2 ⟨ha.leads, hb.leads, fun x hx y hy => ⟨hab x hx y hy, ?_⟩⟩
    intro r hr
    exact hb.fresh y hy r.address (mem_replaced_run.2 (.inr ⟨x, hx, r, hr, rfl⟩))

theorem From.nil (s : Progress) : From t source tree s [] :=
  ⟨by simp, by simp, by simp, List.Pairwise.nil⟩

theorem From.singleton {s : Progress} (hp : Place.Of tree p) (hc : change t source p = .ok c)
    (hs : ∀ a ∈ s.replaced, a <:+ p.address → a = p.address) :
    From t source tree s [(p, c)] :=
  ⟨by simpa using hp, by simpa using hc, by simpa using hs, List.pairwise_singleton _ _⟩

end Step

theorem visit_eq_ok {s s' : Progress} (h : visit t source (.ok s) p = .ok s') :
    ∃ c, change t source p = .ok c ∧ s' = s.add c := by
  unfold visit at h
  cases hc : change t source p with
  | error fault => simp [hc, bind, Except.bind] at h
  | ok c =>
    simp only [hc, bind, Except.bind, pure, Except.pure, Except.ok.injEq] at h
    exact ⟨c, rfl, h.symm⟩

mutual
theorem walkFrom_error (fault : Utf8.Fault) (above : List (Node × Nat)) (n : Node) :
    Place.walkFrom (visit t source) enters above (.error fault) n = .error fault := by
  cases n with
  | mk l cs => rfl

theorem walkAllFrom_error (fault : Utf8.Fault) (parent : Node) (above : List (Node × Nat))
    (i : Nat) (ns : List Node) :
    Place.walkAllFrom (visit t source) enters parent above i (.error fault) ns = .error fault := by
  cases ns with
  | nil => rfl
  | cons n rest => rw [Place.walkAllFrom, walkFrom_error, walkAllFrom_error]
end

mutual
/-- The steps below a place. Nothing that was replaced before may lie above it. -/
theorem exists_steps_walkFrom {above : List (Node × Nat)} {n : Node} {s s' : Progress}
    (hn : Place.Of tree ⟨n, above⟩)
    (hs : ∀ a ∈ s.replaced, a <:+ Place.address ⟨n, above⟩ → a = Place.address ⟨n, above⟩)
    (h : Place.walkFrom (visit t source) enters above (.ok s) n = .ok s') :
    ∃ steps, s' = Step.run s steps ∧ Step.From t source tree s steps ∧
      (∀ x ∈ steps, Place.address ⟨n, above⟩ <:+ x.1.address) ∧
      Place.visitedFrom (visit t source) enters above (.ok s) n = steps.map (·.1) := by
  cases n with
  | mk l cs =>
    rw [Place.walkFrom] at h
    rw [Place.visitedFrom]
    cases hv : visit t source (.ok s) ⟨.mk l cs, above⟩ with
    | error fault => simp [hv, enters] at h
    | ok s₁ =>
      obtain ⟨c, hc, rfl⟩ := visit_eq_ok hv
      have hfirst := Step.From.singleton hn hc hs
      simp only [hv] at h ⊢
      split at h
      · next henters =>
        -- The place itself is not replaced, so nothing at or above it is.
        have hbelow : ∀ a ∈ (s.add c).replaced, ¬ a <:+ Place.address ⟨.mk l cs, above⟩ := by
          intro a ha hsuffix
          refine absurd ?_ (by simpa [enters] using henters)
          suffices heq : a = Place.address ⟨.mk l cs, above⟩ by rwa [← heq]
          rw [Progress.add, List.mem_append] at ha
          rcases ha with ha | ha
          · exact hs a ha hsuffix
          · obtain ⟨r, hr, rfl⟩ := List.mem_map.1 ha
            have hle := (form_of_change hc).suffix_of_mem_replaced hr
            exact hsuffix.eq_of_length_le hle.length_le
        obtain ⟨steps, rfl, hsteps, hunder, hvisited⟩ :=
          exists_steps_walkAllFrom hn (by simp [Node.children]) hbelow h
        rw [if_pos henters, hvisited]
        refine ⟨(⟨.mk l cs, above⟩, c) :: steps, rfl, ?_, ?_, rfl⟩
        · -- A place comes before all that lies below it.
          refine hfirst.append hsteps ?_
          intro x hx y hy
          rw [List.mem_singleton] at hx
          subst hx
          obtain ⟨j, -, hj⟩ := hunder y hy
          refine .inl ⟨(List.suffix_cons j _).trans hj, ?_⟩
          intro heq
          rw [← heq] at hj
          exact Address.not_cons_suffix j _ hj
        · rw [List.forall_mem_cons]
          refine ⟨List.suffix_rfl, fun x hx => ?_⟩
          obtain ⟨j, -, hj⟩ := hunder x hx
          exact (List.suffix_cons j _).trans hj
      · next henters =>
        cases h
        rw [if_neg henters]
        refine ⟨[(⟨.mk l cs, above⟩, c)], rfl, hfirst, ?_, rfl⟩
        simp

/-- The steps below the children of a place from one on. -/
theorem exists_steps_walkAllFrom {parent : Node} {above : List (Node × Nat)} {i : Nat}
    {ns : List Node} {s s' : Progress} (hn : Place.Of tree ⟨parent, above⟩)
    (hi : parent.children.drop i = ns)
    (hs : ∀ a ∈ s.replaced, ¬ a <:+ Place.address ⟨parent, above⟩)
    (h : Place.walkAllFrom (visit t source) enters parent above i (.ok s) ns = .ok s') :
    ∃ steps, s' = Step.run s steps ∧ Step.From t source tree s steps ∧
      (∀ x ∈ steps, ∃ j, i ≤ j ∧ j :: Place.address ⟨parent, above⟩ <:+ x.1.address) ∧
      Place.visitedAllFrom (visit t source) enters parent above i (.ok s) ns =
        steps.map (·.1) := by
  cases ns with
  | nil =>
    cases h
    exact ⟨[], rfl, .nil s, by simp, rfl⟩
  | cons n rest =>
    rw [Place.walkAllFrom] at h
    rw [Place.visitedAllFrom]
    have hget : parent.children[i]? = some n := by
      rw [← List.head?_drop, hi, List.head?_cons]
    cases hw : Place.walkFrom (visit t source) enters ((parent, i) :: above) (.ok s) n with
    | error fault =>
      rw [hw, walkAllFrom_error] at h
      cases h
    | ok s₁ =>
      rw [hw] at h
      have hchild : Place.address ⟨n, (parent, i) :: above⟩ =
          i :: Place.address ⟨parent, above⟩ := rfl
      obtain ⟨first, rfl, hfirst, hunder, hvisited⟩ :=
        exists_steps_walkFrom (hn.child hget) (fun a ha hsuffix => by
          rw [hchild, List.suffix_cons_iff] at hsuffix
          exact hsuffix.resolve_right (hs a ha)) hw
      -- What the steps below the child replaced lies below the child, hence not above its parent.
      have hs₁ : ∀ a ∈ (Step.run s first).replaced, ¬ a <:+ Place.address ⟨parent, above⟩ := by
        intro a ha hsuffix
        rcases Step.mem_replaced_run.1 ha with ha | ⟨x, hx, r, hr, rfl⟩
        · exact hs a ha hsuffix
        · have hle := (form_of_change (hfirst.change_eq x hx)).suffix_of_mem_replaced hr
          exact Address.not_cons_suffix i _ (((hunder x hx).trans hle).trans hsuffix)
      obtain ⟨others, rfl, hothers, hlater, hvisited'⟩ :=
        exists_steps_walkAllFrom hn (by rw [← List.tail_drop, hi, List.tail_cons]) hs₁ h
      refine ⟨first ++ others, (Step.run_append s first others).symm, ?_, ?_, ?_⟩
      · refine hfirst.append hothers ?_
        intro x hx y hy
        obtain ⟨j, hij, hj⟩ := hlater y hy
        exact .inr (.of_children hij (hunder x hx) hj)
      · intro x hx
        rcases List.mem_append.1 hx with hx | hx
        · exact ⟨i, le_rfl, hunder x hx⟩
        · obtain ⟨j, hij, hj⟩ := hlater x hx
          exact ⟨j, Nat.le_of_succ_le hij, hj⟩
      · rw [hvisited, hvisited', List.map_append]
end

mutual
theorem exists_walkFrom {above : List (Node × Nat)} {n : Node} (s : Progress)
    (hn : Place.Of tree ⟨n, above⟩)
    (h : ∀ p, Place.Of tree p → ∃ c, change t source p = .ok c) :
    ∃ s', Place.walkFrom (visit t source) enters above (.ok s) n = .ok s' := by
  cases n with
  | mk l cs =>
    obtain ⟨c, hc⟩ := h _ hn
    have hv : visit t source (.ok s) ⟨.mk l cs, above⟩ = .ok (s.add c) := by
      simp [visit, hc, bind, Except.bind, pure, Except.pure]
    rw [Place.walkFrom, hv]
    split
    · exact exists_walkAllFrom (s.add c) hn (i := 0) (by simp [Node.children]) h
    · exact ⟨_, rfl⟩

theorem exists_walkAllFrom {parent : Node} {above : List (Node × Nat)} {i : Nat} {ns : List Node}
    (s : Progress) (hn : Place.Of tree ⟨parent, above⟩) (hi : parent.children.drop i = ns)
    (h : ∀ p, Place.Of tree p → ∃ c, change t source p = .ok c) :
    ∃ s', Place.walkAllFrom (visit t source) enters parent above i (.ok s) ns = .ok s' := by
  cases ns with
  | nil => exact ⟨s, rfl⟩
  | cons n rest =>
    have hget : parent.children[i]? = some n := by
      rw [← List.head?_drop, hi, List.head?_cons]
    obtain ⟨s₁, hs₁⟩ := exists_walkFrom s (hn.child hget) h
    rw [Place.walkAllFrom, hs₁]
    exact exists_walkAllFrom s₁ hn (by rw [← List.tail_drop, hi, List.tail_cons]) h
end

/-- There is a plan if every place has a change. -/
theorem exists_ofTree (h : ∀ p, Place.Of tree p → ∃ c, change t source p = .ok c) :
    ∃ plan, ofTree t source tree = .ok plan := by
  obtain ⟨s, hs⟩ := exists_walkFrom {} .top h
  exact ⟨s.plan, by rw [ofTree, Place.walk, hs]; rfl⟩

/-- The places that the walk of a plan comes to. -/
def reached (t : Targets) (source : Bytes) (tree : Node) : List Place :=
  Place.visited (visit t source) enters (.ok {}) tree

/-- The steps of a plan's walk are at the places it comes to. -/
theorem exists_steps_reached {plan : Plan} (h : ofTree t source tree = .ok plan) :
    ∃ steps, plan = (Step.run {} steps).plan ∧ Step.From t source tree {} steps ∧
      reached t source tree = steps.map (·.1) := by
  unfold ofTree Place.walk at h
  cases hw : Place.walkFrom (visit t source) enters [] (.ok {}) tree with
  | error fault => simp [hw, Except.map] at h
  | ok s =>
    simp only [hw, Except.map, Except.ok.injEq] at h
    obtain ⟨steps, rfl, hsteps, -, hvisited⟩ := exists_steps_walkFrom .top (by simp) hw
    exact ⟨steps, h.symm, hsteps, hvisited⟩

/-- A place that the walk comes to is one of its steps, with what it contributes. -/
theorem exists_step_of_reached {plan : Plan} (h : ofTree t source tree = .ok plan)
    (hp : p ∈ reached t source tree) (hc : change t source p = .ok c) :
    ∃ steps, plan = (Step.run {} steps).plan ∧ Step.From t source tree {} steps ∧
      (p, c) ∈ steps := by
  obtain ⟨steps, hplan, hsteps, hreached⟩ := exists_steps_reached h
  rw [hreached, List.mem_map] at hp
  obtain ⟨⟨_, c'⟩, hx, rfl⟩ := hp
  obtain rfl : c' = c := Except.ok.inj ((hsteps.change_eq _ hx).symm.trans hc)
  exact ⟨steps, hplan, hsteps, hx⟩

/-- A plan is the sum of the steps of its walk. -/
theorem exists_steps {plan : Plan} (h : ofTree t source tree = .ok plan) :
    ∃ steps, plan = (Step.run {} steps).plan ∧ Step.From t source tree {} steps := by
  obtain ⟨steps, hplan, hsteps, -⟩ := exists_steps_reached h
  exact ⟨steps, hplan, hsteps⟩

namespace Step

theorem edits_run (s : Progress) (steps : List Step) :
    (run s steps).plan.edits = s.plan.edits ++ steps.flatMap (·.2.edits) := by
  induction steps generalizing s with
  | nil => simp [run]
  | cons x rest ih =>
    rw [run, List.foldl_cons, ← run, ih]
    simp [Progress.add, record]

theorem names_run (s : Progress) (steps : List Step) :
    (run s steps).plan.names = s.plan.names ++ steps.flatMap (·.2.names) := by
  induction steps generalizing s with
  | nil => simp [run]
  | cons x rest ih =>
    rw [run, List.foldl_cons, ← run, ih]
    simp [Progress.add, record]

/-- Names are counted as they are recorded. -/
theorem nodesRemoved_run {s : Progress} (steps : List Step)
    (h : s.plan.nodesRemoved = s.plan.names.length) :
    (run s steps).plan.nodesRemoved = (run s steps).plan.names.length := by
  induction steps generalizing s with
  | nil => exact h
  | cons x rest ih =>
    rw [run, List.foldl_cons, ← run]
    exact ih (by simp [Progress.add, record, h])

end Step

/-- A plan counts the names it records. -/
theorem nodesRemoved_eq {plan : Plan} (h : ofTree t source tree = .ok plan) :
    plan.nodesRemoved = plan.names.length := by
  obtain ⟨steps, rfl, -⟩ := exists_steps h
  exact Step.nodesRemoved_run steps rfl

end Deadwood.Plan
