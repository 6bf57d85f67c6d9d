import Deadwood.Proofs.Syntax.Address

/-!
Going through a tree with a stack of the places still to come. Each place is offered to a consumer,
which may stop it all, and only then is asked whether the children are to come too. Whatever the
consumer does, a place is offered if all its ancestors were entered (`mem_offered_iff`), each once
and in document order.
-/
namespace Deadwood.Place

variable {σ ε : Type}

/-! ## The loop -/

/-- Puts places on a stack, the last one first, so that the first comes off first. -/
def push (children stack : List Place) : List Place :=
  children.reverse.foldl (fun stack c => c :: stack) stack

theorem push_eq (children stack : List Place) : push children stack = children ++ stack := by
  simp [push]

/-- How many places are on a stack or below places on it. -/
def pending (stack : List Place) : Nat := (stack.flatMap (·.node.preorder)).length

theorem pending_append (a b : List Place) : pending (a ++ b) = pending a + pending b := by
  rw [pending, List.flatMap_append, List.length_append]
  rfl

theorem pending_cons (p : Place) (rest : List Place) :
    pending (p :: rest) = pending p.children + pending rest + 1 := by
  obtain ⟨⟨l, cs⟩, above⟩ := p
  have hnodes : (children ⟨.mk l cs, above⟩).map (·.node) = cs := children_nodes _
  have hchildren : (children ⟨.mk l cs, above⟩).flatMap (·.node.preorder) =
      Node.preorderAll cs := calc
    _ = ((children ⟨.mk l cs, above⟩).map (·.node)).flatMap Node.preorder := by
      rw [List.flatMap_map]
    _ = Node.preorderAll cs := by rw [hnodes, Node.preorderAll_eq_flatMap]
  rw [pending, pending, pending, hchildren, List.flatMap_cons, List.length_append, Node.preorder,
    List.length_cons]
  omega

/-- What is on the stack once a place has been taken off and handled. -/
def remaining (enters : σ → Place → Bool) (s : σ) (p : Place) (rest : List Place) : List Place :=
  if enters s p then push p.children rest else rest

theorem mem_remaining {enters : σ → Place → Bool} {s : σ} {p q : Place} {rest : List Place} :
    q ∈ remaining enters s p rest ↔ enters s p = true ∧ q ∈ p.children ∨ q ∈ rest := by
  unfold remaining
  split
  · next h => simp [push_eq, h]
  · next h => simp [h]

theorem pending_remaining_lt (enters : σ → Place → Bool) (s : σ) (p : Place) (rest : List Place) :
    pending (remaining enters s p rest) < pending (p :: rest) := by
  rw [pending_cons, remaining]
  split
  · rw [push_eq, pending_append]
    omega
  · omega

/-- Takes places off a stack until it is empty or the consumer stops. Lists each place with the
state that the consumer is in once it has handled the place. -/
def offer (handle : σ → Place → Except ε σ) (enters : σ → Place → Bool) (s : σ) :
    List Place → List (Place × Except ε σ)
  | [] => []
  | p :: rest =>
    (p, handle s p) ::
      match handle s p with
      | .error _ => []
      | .ok s => offer handle enters s (remaining enters s p rest)
termination_by stack => pending stack
decreasing_by exact pending_remaining_lt enters s p rest

/-- Everything that comes from the places of a tree, the root first. -/
def offered (handle : σ → Place → Except ε σ) (enters : σ → Place → Bool) (s : σ) (tree : Node) :
    List (Place × Except ε σ) :=
  offer handle enters s [root tree]

variable {handle : σ → Place → Except ε σ} {enters : σ → Place → Bool} {s s' : σ} {e : ε}
  {tree : Node} {p q : Place} {stack rest : List Place}

theorem offer_cons_of_error (h : handle s p = .error e) :
    offer handle enters s (p :: rest) = [(p, .error e)] := by
  rw [offer, h]

theorem offer_cons_of_ok (h : handle s p = .ok s') :
    offer handle enters s (p :: rest) =
      (p, .ok s') :: offer handle enters s' (remaining enters s' p rest) := by
  rw [offer, h]

theorem mem_offer_cons {x : Place × Except ε σ} :
    x ∈ offer handle enters s (p :: rest) ↔ x = (p, handle s p) ∨
      ∃ s', handle s p = .ok s' ∧ x ∈ offer handle enters s' (remaining enters s' p rest) := by
  cases h : handle s p with
  | error e => simp [offer_cons_of_error h]
  | ok s' => simp [offer_cons_of_ok h]

/-! ## Places on a stack -/

/-- Places of a tree that lie one before the other. -/
structure Tiles (tree : Node) (stack : List Place) : Prop where
  of_tree : ∀ q ∈ stack, Of tree q
  apart : stack.Pairwise fun a b => Address.Before a.address b.address

theorem Tiles.root (tree : Node) : Tiles tree [root tree] :=
  ⟨by simpa using .top, List.pairwise_singleton _ _⟩

theorem Tiles.tail (h : Tiles tree (p :: rest)) : Tiles tree rest :=
  ⟨fun q hq => h.of_tree q (List.mem_cons_of_mem _ hq), h.apart.tail⟩

/-- The children of a place take its place. -/
theorem Tiles.step (h : Tiles tree (p :: rest)) (enters : σ → Place → Bool) (s : σ) :
    Tiles tree (remaining enters s p rest) where
  of_tree q hq := by
    rcases mem_remaining.1 hq with ⟨-, hchild⟩ | hrest
    · exact (h.of_tree p List.mem_cons_self).of_mem_children hchild
    · exact h.tail.of_tree q hrest
  apart := by
    unfold remaining
    split
    · rw [push_eq, List.pairwise_append]
      refine ⟨pairwise_children p, h.tail.apart, fun c hc q hq => ?_⟩
      exact (List.rel_of_pairwise_cons h.apart hq).mono (suffix_of_mem_children hc) List.suffix_rfl
    · exact h.tail.apart

/-- What lies below what is on the stack next comes after the place that was taken off. -/
theorem Tiles.precedes (h : Tiles tree (p :: rest))
    (hq : ∃ c ∈ remaining enters s p rest, c.address <:+ q.address) :
    Address.Precedes p.address q.address := by
  obtain ⟨c, hc, hcq⟩ := hq
  rcases mem_remaining.1 hc with ⟨-, hchild⟩ | hrest
  · obtain ⟨i, hi⟩ := address_of_mem_children hchild
    rw [hi] at hcq
    refine .inl ⟨(List.suffix_cons i _).trans hcq, fun heq => ?_⟩
    rw [← heq] at hcq
    exact Address.not_cons_suffix i _ hcq
  · exact .inr ((List.rel_of_pairwise_cons h.apart hrest).mono List.suffix_rfl hcq)

/-- What is offered lies at or below the stack. -/
theorem Tiles.of_mem_offer (h : Tiles tree stack) {x : Place × Except ε σ}
    (hx : x ∈ offer handle enters s stack) :
    Of tree x.1 ∧ ∃ c ∈ stack, c.address <:+ x.1.address := by
  induction s, stack using offer.induct enters with
  | case1 s =>
    rw [offer] at hx
    cases hx
  | case2 s p rest ih =>
    rcases mem_offer_cons.1 hx with rfl | ⟨s', -, hx⟩
    · exact ⟨h.of_tree p List.mem_cons_self, p, List.mem_cons_self, List.suffix_rfl⟩
    · obtain ⟨hof, c, hc, hcx⟩ := ih s' (h.step enters s') hx
      refine ⟨hof, ?_⟩
      rcases mem_remaining.1 hc with ⟨-, hchild⟩ | hrest
      · exact ⟨p, List.mem_cons_self, (suffix_of_mem_children hchild).trans hcx⟩
      · exact ⟨c, List.mem_cons_of_mem _ hrest, hcx⟩

/-- What is offered later comes later. -/
theorem Tiles.precedes_of_mem_offer (h : Tiles tree (p :: rest)) {x : Place × Except ε σ}
    (hx : x ∈ offer handle enters s (remaining enters s p rest)) :
    Address.Precedes p.address x.1.address :=
  h.precedes ((h.step enters s).of_mem_offer hx).2

theorem Tiles.pairwise_offer (h : Tiles tree stack) :
    (offer handle enters s stack).Pairwise
      fun x y => Address.Precedes x.1.address y.1.address := by
  induction s, stack using offer.induct enters with
  | case1 s =>
    rw [offer]
    exact List.Pairwise.nil
  | case2 s p rest ih =>
    cases hp : handle s p with
    | error e =>
      rw [offer_cons_of_error hp]
      exact List.pairwise_singleton _ _
    | ok s' =>
      rw [offer_cons_of_ok hp, List.pairwise_cons]
      exact ⟨fun x hx => h.precedes_of_mem_offer hx, ih s' (h.step enters s')⟩

/-! ## What is offered -/

/-- A place was handled and found fit to be entered. -/
def Entered (enters : σ → Place → Bool) (entries : List (Place × Except ε σ)) (q : Place) : Prop :=
  ∃ s, (q, .ok s) ∈ entries ∧ enters s q = true

/-- The consumer stopped at a place that comes before. -/
def Stopped (entries : List (Place × Except ε σ)) (p : Place) : Prop :=
  ∃ f e, (f, .error e) ∈ entries ∧ Address.Precedes f.address p.address

variable {entries : List (Place × Except ε σ)} {r : Except ε σ} {c : Place}

theorem entered_cons_of_ne (h : q ≠ p) :
    Entered enters ((p, r) :: entries) q ↔ Entered enters entries q := by
  simp [Entered, h]

theorem stopped_cons_of_ok : Stopped ((q, .ok s) :: entries) p ↔ Stopped entries p := by
  simp [Stopped]

/-- Of the places on a stack only the top lies at or above the top. -/
theorem Tiles.eq_top (h : Tiles tree (p :: rest)) (hc : c ∈ p :: rest)
    (hcp : c.address <:+ p.address) : c = p := by
  rcases List.mem_cons.1 hc with rfl | hc
  · rfl
  · exact absurd hcp (List.rel_of_pairwise_cons h.apart hc).not_suffix'

/-- The top of a stack is offered in any case. -/
theorem Tiles.not_stopped_top (h : Tiles tree (p :: rest)) :
    ¬ Stopped (offer handle enters s (p :: rest)) p := by
  rintro ⟨f, e, hf, hprecedes⟩
  rcases mem_offer_cons.1 hf with heq | ⟨s', -, hf⟩
  · obtain ⟨rfl, -⟩ := Prod.mk.inj heq
    exact hprecedes.ne rfl
  · exact (h.precedes_of_mem_offer hf).asymm hprecedes

/-- The places on the way from `c` down to `p`, save `p`, were entered. -/
def WayEntered (tree : Node) (enters : σ → Place → Bool) (entries : List (Place × Except ε σ))
    (c p : Place) : Prop :=
  ∀ q, Of tree q → c.address <:+ q.address → q.address <:+ p.address → q ≠ p →
    Entered enters entries q

/-- The way down from a place that was entered goes on through one of its children. -/
theorem wayEntered_cons_iff (hc : Of tree c) {i : Nat} {n : Node}
    (hchild : (c.childAt i n).address <:+ p.address)
    (henters : enters s c = true) :
    WayEntered tree enters ((c, .ok s) :: entries) c p ↔
      WayEntered tree enters entries (c.childAt i n) p := by
  constructor
  · intro hway q hq hcq hqp hqne
    have hqc : q ≠ c := by
      rintro rfl
      exact Address.not_cons_suffix i _ hcq
    exact (entered_cons_of_ne hqc).1 (hway q hq ((List.suffix_cons i _).trans hcq) hqp hqne)
  · intro hway q hq hcq hqp hqne
    by_cases hqc : q = c
    · rw [hqc]
      exact ⟨s, List.mem_cons_self, henters⟩
    · obtain ⟨j, m, hj, hcq⟩ := (hc.eq_or_below hq hcq).resolve_left hqc
      obtain rfl : i = j := Address.eq_of_cons_suffix hchild (hcq.trans hqp)
      exact (entered_cons_of_ne hqc).2 (hway q hq hcq hqp hqne)

/-- Nothing below the top of a stack is offered unless the top is entered. -/
theorem Tiles.entered_of_mem (h : Tiles tree (c :: rest)) (hcp : c.address <:+ p.address)
    (hmem : p ∈ (offer handle enters s (remaining enters s c rest)).map (·.1)) :
    enters s c = true := by
  obtain ⟨x, hx, rfl⟩ := List.mem_map.1 hmem
  obtain ⟨-, c', hc', hc'p⟩ := (h.step enters s).of_mem_offer hx
  refine (mem_remaining.1 hc').elim (·.1) fun hrest => ?_
  exact absurd List.suffix_rfl
    ((List.rel_of_pairwise_cons h.apart hrest).mono hcp hc'p).not_suffix

/-- A place at or below one on the stack is offered if those on the way down were entered and the
consumer went on until there. -/
theorem Tiles.mem_offer_iff (h : Tiles tree stack) (hp : Of tree p) (hc : c ∈ stack)
    (hcp : c.address <:+ p.address) : p ∈ (offer handle enters s stack).map (·.1) ↔
      WayEntered tree enters (offer handle enters s stack) c p ∧
      ¬ Stopped (offer handle enters s stack) p := by
  induction s, stack using offer.induct enters generalizing c with
  | case1 s => cases hc
  | case2 s top rest ih =>
    have htop : Of tree top := h.of_tree top List.mem_cons_self
    by_cases heq : p = top
    · -- Nothing lies on the way from the top to the top.
      subst heq
      obtain rfl : c = p := h.eq_top hc hcp
      have hmem : c ∈ (offer handle enters s (c :: rest)).map (·.1) :=
        List.mem_map.2 ⟨_, mem_offer_cons.2 (.inl rfl), rfl⟩
      refine iff_of_true hmem ⟨fun q hq hcq hqc hne => ?_, h.not_stopped_top⟩
      exact absurd (hq.eq_of_address htop (hqc.eq_of_length_le hcq.length_le)) hne
    cases hhandle : handle s top with
    | error e =>
      -- The consumer stops at once: what lies below the top is not entered, the rest comes later.
      rw [offer_cons_of_error hhandle]
      refine iff_of_false (by simpa using heq) fun ⟨hway, hgoes⟩ => ?_
      rcases List.mem_cons.1 hc with rfl | hrest
      · obtain ⟨s', hs', -⟩ := hway c htop List.suffix_rfl hcp (Ne.symm heq)
        simp at hs'
      · refine hgoes ⟨top, e, List.mem_cons_self, .inr ?_⟩
        exact (List.rel_of_pairwise_cons h.apart hrest).mono List.suffix_rfl hcp
    | ok s' =>
      rw [offer_cons_of_ok hhandle, stopped_cons_of_ok, List.map_cons, List.mem_cons,
        or_iff_right heq]
      rcases List.mem_cons.1 hc with rfl | hrest
      · obtain ⟨i, n, hi, hchild⟩ := (htop.eq_or_below hp hcp).resolve_left heq
        by_cases henters : enters s' c = true
        · have hmem : c.childAt i n ∈ remaining enters s' c rest :=
            mem_remaining.2 (.inl ⟨henters, mem_children.2 ⟨i, n, hi, rfl⟩⟩)
          rw [ih s' (h.step enters s') hmem hchild,
            wayEntered_cons_iff htop hchild henters]
        · refine iff_of_false (fun hmem => henters (h.entered_of_mem hcp hmem)) fun ⟨hway, _⟩ => ?_
          obtain ⟨s'', hs'', henters'⟩ := hway c htop List.suffix_rfl hcp (Ne.symm heq)
          rcases List.mem_cons.1 hs'' with hhead | hlater
          · cases hhead
            exact henters henters'
          · exact (h.precedes_of_mem_offer hlater).ne rfl
      · rw [ih s' (h.step enters s') (mem_remaining.2 (.inr hrest)) hcp]
        refine and_congr_left fun _ => forall_congr' fun q => forall_congr' fun _ =>
          forall_congr' fun hcq => ?_
        have hne : q ≠ top := by
          rintro rfl
          exact (List.rel_of_pairwise_cons h.apart hrest).not_suffix' hcq
        rw [entered_cons_of_ne hne]

/-- Of all places of a tree those are offered whose ancestors were entered, as long as the consumer
goes on. -/
theorem mem_offered_iff (hp : Of tree p) : p ∈ (offered handle enters s tree).map (·.1) ↔
    (∀ q, Of tree q → q.address <:+ p.address → q ≠ p →
      Entered enters (offered handle enters s tree) q) ∧
    ¬ Stopped (offered handle enters s tree) p := by
  have hroot : ∀ q : Place, (root tree).address <:+ q.address := fun _ => List.nil_suffix
  rw [offered, (Tiles.root tree).mem_offer_iff hp (List.mem_singleton_self _) (hroot p)]
  exact and_congr_left fun _ => forall_congr' fun q => forall_congr' fun _ =>
    forall_prop_of_true (hroot q)

theorem of_mem_offered (h : p ∈ (offered handle enters s tree).map (·.1)) : Of tree p := by
  obtain ⟨x, hx, rfl⟩ := List.mem_map.1 h
  exact ((Tiles.root tree).of_mem_offer hx).1

/-- Places that come in document order are told by which they are. -/
theorem eq_of_pairwise_precedes {l l' : List Place}
    (h : l.Pairwise fun a b => Address.Precedes a.address b.address)
    (h' : l'.Pairwise fun a b => Address.Precedes a.address b.address)
    (hmem : ∀ p, p ∈ l ↔ p ∈ l') : l = l' := by
  have hnodup : ∀ {l : List Place},
      (l.Pairwise fun a b => Address.Precedes a.address b.address) → l.Nodup := fun h =>
    h.imp fun hab heq => hab.ne (congrArg address heq)
  exact ((List.perm_ext_iff_of_nodup (hnodup h) (hnodup h')).2 hmem).eq_of_pairwise
    (fun _ _ _ _ hab hba => absurd hba hab.asymm) h h'

/-- Places are offered in document order, each at most once. -/
theorem offered_sublist (handle : σ → Place → Except ε σ) (enters : σ → Place → Bool) (s : σ)
    (tree : Node) : ((offered handle enters s tree).map (·.1)).Sublist (preorder tree) := by
  classical
  have hpairwise : ((offered handle enters s tree).map (·.1)).Pairwise
      fun a b => Address.Precedes a.address b.address :=
    List.pairwise_map.2 (Tiles.root tree).pairwise_offer
  have heq : (offered handle enters s tree).map (·.1) =
      (preorder tree).filter (· ∈ (offered handle enters s tree).map (·.1)) := by
    refine eq_of_pairwise_precedes hpairwise ((pairwise_preorder tree).filter _) fun p => ?_
    rw [List.mem_filter, decide_eq_true_iff, mem_preorder]
    exact ⟨fun h => ⟨of_mem_offered h, h⟩, fun h => h.2⟩
  rw [heq]
  exact List.filter_sublist

/-! ## Marks -/

section Marks

variable {marks : σ → List Address}

/-- The consumer had marked an address at some time. -/
def Marked (marks : σ → List Address) (entries : List (Place × Except ε σ)) (a : Address) : Prop :=
  ∃ r s, (r, .ok s) ∈ entries ∧ a ∈ marks s

/-- Refuses to enter a place that is marked. -/
def unmarked (marks : σ → List Address) (s : σ) (p : Place) : Bool :=
  ! (marks s).contains p.address

theorem unmarked_eq_true_iff : unmarked marks s p = true ↔ p.address ∉ marks s := by
  simp [unmarked]

/-- A consumer keeps its marks and marks nothing but what lies at or below the place it handles. -/
structure MarksBelow (handle : σ → Place → Except ε σ) (marks : σ → List Address) : Prop where
  keeps : ∀ {s p s'}, handle s p = .ok s' → ∀ a ∈ marks s, a ∈ marks s'
  below : ∀ {s p s'}, handle s p = .ok s' → ∀ a ∈ marks s', a ∈ marks s ∨ p.address <:+ a

variable (hmarks : MarksBelow handle marks)

include hmarks

/-- What is marked stays marked. -/
theorem mem_marks_of_mem_offer {a : Address} (ha : a ∈ marks s)
    (h : (p, .ok s') ∈ offer handle enters s stack) : a ∈ marks s' := by
  induction s, stack using offer.induct enters with
  | case1 s =>
    rw [offer] at h
    cases h
  | case2 s top rest ih =>
    rcases mem_offer_cons.1 h with heq | ⟨s₁, htop, h⟩
    · exact hmarks.keeps (Prod.mk.inj heq).2.symm a ha
    · exact ih s₁ (hmarks.keeps htop a ha) h

/-- What is marked in the end was marked at the start or lies at or below a place that was
offered. -/
theorem exists_of_mem_marks {a : Address} (h : (p, .ok s') ∈ offer handle enters s stack)
    (ha : a ∈ marks s') :
    a ∈ marks s ∨ ∃ x ∈ offer handle enters s stack, x.1.address <:+ a := by
  induction s, stack using offer.induct enters with
  | case1 s =>
    rw [offer] at h
    cases h
  | case2 s top rest ih =>
    rcases mem_offer_cons.1 h with heq | ⟨s₁, htop, h⟩
    · refine (hmarks.below (Prod.mk.inj heq).2.symm a ha).imp_right fun hbelow => ?_
      exact ⟨_, mem_offer_cons.2 (.inl rfl), hbelow⟩
    · rcases ih s₁ h with hs₁ | ⟨x, hx, hxa⟩
      · refine (hmarks.below htop a hs₁).imp_right fun hbelow => ?_
        exact ⟨_, mem_offer_cons.2 (.inl rfl), hbelow⟩
      · exact .inr ⟨x, mem_offer_cons.2 (.inr ⟨s₁, htop, hx⟩), hxa⟩

/-- A place that is ever marked is marked as soon as it has been handled. -/
theorem Tiles.mem_marks_of_marked (h : Tiles tree stack)
    (hp : (p, .ok s') ∈ offer handle enters s stack)
    (hmarked : Marked marks (offer handle enters s stack) p.address) : p.address ∈ marks s' := by
  induction s, stack using offer.induct enters with
  | case1 s =>
    rw [offer] at hp
    cases hp
  | case2 s top rest ih =>
    obtain ⟨r, s'', hr, hmark⟩ := hmarked
    rcases mem_offer_cons.1 hp with heq | ⟨s₁, htop, hp⟩
    · obtain ⟨rfl, htop⟩ := Prod.mk.inj heq
      rcases mem_offer_cons.1 hr with heq' | ⟨s₁, htop', hr⟩
      · rw [← (Prod.mk.inj heq').2, Except.ok.injEq] at htop
        exact htop ▸ hmark
      · -- Whatever is marked later lies below places that come later.
        rw [htop', Except.ok.injEq] at htop
        rw [htop]
        refine (exists_of_mem_marks hmarks hr hmark).resolve_right fun ⟨x, hx, hxp⟩ => ?_
        exact (h.precedes_of_mem_offer hx).not_suffix' hxp
    · rcases mem_offer_cons.1 hr with heq' | ⟨s₂, htop', hr⟩
      · rw [htop, Prod.mk.injEq, Except.ok.injEq] at heq'
        exact mem_marks_of_mem_offer hmarks (heq'.2 ▸ hmark) hp
      · rw [htop', Except.ok.injEq] at htop
        subst htop
        exact ih s₂ (h.step enters s₂) hp ⟨r, s'', hr, hmark⟩

/-- Offered is what lies below nothing that was ever marked. -/
theorem mem_offered_iff_unmarked (hp : Of tree p) :
    p ∈ (offered handle (unmarked marks) s tree).map (·.1) ↔
      (∀ q, Of tree q → q.address <:+ p.address → q ≠ p →
        ¬ Marked marks (offered handle (unmarked marks) s tree) q.address) ∧
      ¬ Stopped (offered handle (unmarked marks) s tree) p := by
  constructor
  · intro h
    obtain ⟨hway, hgoes⟩ := (mem_offered_iff hp).1 h
    refine ⟨fun q hq hqp hne hmarked => ?_, hgoes⟩
    obtain ⟨s', hs', henters⟩ := hway q hq hqp hne
    exact unmarked_eq_true_iff.1 henters
      ((Tiles.root tree).mem_marks_of_marked hmarks hs' hmarked)
  · rintro ⟨hway, hgoes⟩
    induction hp with
    | top =>
      refine (mem_offered_iff .top).2 ⟨fun q hq hqp hne => absurd ?_ hne, hgoes⟩
      exact hq.eq_of_address .top (List.suffix_nil.1 hqp)
    | @child p i n hp hi ih =>
      have hpchild : p.address <:+ (p.childAt i n).address := List.suffix_cons i _
      have hne : p ≠ p.childAt i n := fun heq =>
        Address.not_cons_suffix i _ (heq ▸ List.suffix_rfl : (p.childAt i n).address <:+ p.address)
      have hparent := ih (fun q hq hqp hqne => hway q hq (hqp.trans hpchild) fun heq =>
          Address.not_cons_suffix i _ (heq ▸ hqp : (p.childAt i n).address <:+ p.address))
        fun ⟨f, e, hf, hprecedes⟩ => hgoes ⟨f, e, hf, hprecedes.of_suffix hpchild⟩
      refine (mem_offered_iff (hp.child hi)).2 ⟨fun q hq hqp hqne => ?_, hgoes⟩
      by_cases hqp' : q = p
      · -- The parent was handled, did not stop the consumer and is not marked.
        subst hqp'
        obtain ⟨⟨_, result⟩, hmem, rfl⟩ := List.mem_map.1 hparent
        cases result with
        | error e => exact absurd ⟨_, e, hmem, .inl ⟨hpchild, fun heq => hne
            (hp.eq_of_address (hp.child hi) heq)⟩⟩ hgoes
        | ok s' =>
          refine ⟨s', hmem, unmarked_eq_true_iff.2 fun hmark => ?_⟩
          exact hway _ hp hpchild hne ⟨_, s', hmem, hmark⟩
      · rw [address_childAt, List.suffix_cons_iff] at hqp
        have habove := hqp.resolve_left fun heq => hqne (hq.eq_of_address (hp.child hi) heq)
        exact ((mem_offered_iff hp).1 hparent).1 q hq habove hqp'

end Marks

/-! ## Without a consumer -/

/-- All places of a tree, as they come off the stack when nothing is asked of them. -/
def unrolled (tree : Node) : List Place :=
  (offered (fun _ _ => (.ok () : Except Empty Unit)) (fun _ _ => true) () tree).map (·.1)

theorem unrolled_eq_preorder (tree : Node) : unrolled tree = preorder tree := by
  refine eq_of_pairwise_precedes ((pairwise_preorder tree).sublist (offered_sublist ..))
    (pairwise_preorder tree) fun p => ⟨fun h => mem_preorder.2 (of_mem_offered h), fun h => ?_⟩
  have hnothing : MarksBelow (fun (_ : Unit) _ => (.ok () : Except Empty Unit)) fun _ => [] :=
    ⟨by simp, by simp⟩
  refine (mem_offered_iff_unmarked hnothing (mem_preorder.1 h)).2
    ⟨fun q _ _ _ ⟨_, _, _, hmark⟩ => List.not_mem_nil hmark, fun ⟨_, e, _⟩ => nomatch e⟩

end Deadwood.Place
