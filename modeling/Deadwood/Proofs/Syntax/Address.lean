import Deadwood.Syntax.Place
import Mathlib.Data.List.Infix

/-!
Addresses in a tree. An address is a suffix of those of the places below its own, and of two
addresses without such a tie one lies before the other. The places of a tree are told apart by
their addresses and come in document order.
-/
namespace Deadwood

namespace Address

/-- At some place the way to `a` takes an earlier child than the way to `b`. -/
def Before (a b : Address) : Prop := ∃ c i j, i < j ∧ i :: c <:+ a ∧ j :: c <:+ b

/-- In document order: a place comes before those below it and those that lie after it. -/
def Precedes (a b : Address) : Prop := (a <:+ b ∧ a ≠ b) ∨ Before a b

theorem eq_of_cons_suffix {i j : Nat} {a b : Address} (hi : i :: a <:+ b) (hj : j :: a <:+ b) :
    i = j := by
  have h : i :: a = j :: a :=
    (List.suffix_of_suffix_length_le hi hj (by simp)).eq_of_length (by simp)
  simpa using h

theorem not_cons_suffix (i : Nat) (a : Address) : ¬ i :: a <:+ a := by
  intro h
  have := h.length_le
  simp only [List.length_cons] at this
  omega

/-- What two addresses share ends where their ways part. -/
theorem suffix_of_parting {a b c d : Address} {i j : Nat} (hij : i ≠ j) (hi : i :: c <:+ a)
    (hj : j :: c <:+ b) (ha : d <:+ a) (hb : d <:+ b) : d <:+ c := by
  rcases Nat.lt_or_ge c.length d.length with hlt | hle
  · exact absurd (eq_of_cons_suffix (List.suffix_of_suffix_length_le hi ha hlt)
      (List.suffix_of_suffix_length_le hj hb hlt)) hij
  · exact List.suffix_of_suffix_length_le ha ((List.suffix_cons i c).trans hi) hle

namespace Before

variable {a b a' b' : Address}

theorem mono (h : Before a b) (ha : a <:+ a') (hb : b <:+ b') : Before a' b' := by
  obtain ⟨c, i, j, hij, hi, hj⟩ := h
  exact ⟨c, i, j, hij, hi.trans ha, hj.trans hb⟩

theorem not_suffix (h : Before a b) : ¬ a <:+ b := by
  obtain ⟨c, i, j, hij, hi, hj⟩ := h
  intro hab
  exact hij.ne (eq_of_cons_suffix (hi.trans hab) hj)

theorem not_suffix' (h : Before a b) : ¬ b <:+ a := by
  obtain ⟨c, i, j, hij, hi, hj⟩ := h
  intro hba
  exact hij.ne (eq_of_cons_suffix hi (hj.trans hba))

theorem asymm (h : Before a b) : ¬ Before b a := by
  obtain ⟨c, i, j, hij, hi, hj⟩ := h
  rintro ⟨c', i', j', hij', hi', hj'⟩
  -- Both ways part at one place, and there each would take the earlier child.
  have hc : c <:+ c' := suffix_of_parting hij'.ne hi' hj' ((List.suffix_cons _ _).trans hj)
    ((List.suffix_cons _ _).trans hi)
  have hc' : c' <:+ c := suffix_of_parting hij.ne hi hj ((List.suffix_cons _ _).trans hj')
    ((List.suffix_cons _ _).trans hi')
  obtain rfl : c = c' := hc.eq_of_length_le hc'.length_le
  have hij'' : i = j' := eq_of_cons_suffix hi hj'
  have hji : j = i' := eq_of_cons_suffix hj hi'
  omega

theorem of_children {c : Address} {i j : Nat} (hij : i < j) (hi : i :: c <:+ a)
    (hj : j :: c <:+ b) : Before a b := ⟨c, i, j, hij, hi, hj⟩

theorem append (h : Before a b) (c : Address) : Before (a ++ c) (b ++ c) := by
  obtain ⟨d, i, j, hij, ⟨s, rfl⟩, ⟨s', rfl⟩⟩ := h
  exact ⟨d ++ c, i, j, hij, ⟨s, by simp⟩, ⟨s', by simp⟩⟩

end Before

private theorem cases_reverse (a b : List Nat) :
    a <+: b ∨ b <+: a ∨ Before a.reverse b.reverse ∨ Before b.reverse a.reverse := by
  induction a generalizing b with
  | nil => exact .inl List.nil_prefix
  | cons x xs ih =>
    cases b with
    | nil => exact .inr (.inl List.nil_prefix)
    | cons y ys =>
      -- The first index that differs decides.
      rcases lt_trichotomy x y with h | rfl | h
      · exact .inr (.inr (.inl ⟨[], x, y, h, by simp, by simp⟩))
      · simp only [List.reverse_cons]
        rcases ih ys with h | h | h | h
        · exact .inl (by simpa using h)
        · exact .inr (.inl (by simpa using h))
        · exact .inr (.inr (.inl (h.append [x])))
        · exact .inr (.inr (.inr (h.append [x])))
      · exact .inr (.inr (.inr ⟨[], y, x, h, by simp, by simp⟩))

/-- Two addresses lie on one way down or one before the other. -/
theorem suffix_or_before (a b : Address) : a <:+ b ∨ b <:+ a ∨ Before a b ∨ Before b a := by
  have h := cases_reverse a.reverse b.reverse
  simpa only [List.reverse_prefix, List.reverse_reverse] using h

namespace Precedes

variable {a b : Address}

theorem ne (h : Precedes a b) : a ≠ b := by
  rintro rfl
  rcases h with ⟨_, h⟩ | h
  · exact h rfl
  · exact h.not_suffix List.suffix_rfl

/-- Nothing that comes later lies above. -/
theorem not_suffix' (h : Precedes a b) : ¬ b <:+ a := by
  rcases h with ⟨hs, hne⟩ | h
  · intro hba
    exact hne (hs.eq_of_length_le hba.length_le)
  · exact h.not_suffix'

theorem asymm (h : Precedes a b) : ¬ Precedes b a := by
  rintro (⟨hs, -⟩ | hbefore)
  · exact h.not_suffix' hs
  · rcases h with ⟨hs, -⟩ | h
    · exact hbefore.not_suffix' hs
    · exact h.asymm hbefore

/-- What comes before a place comes before all that lies below it. -/
theorem of_suffix (h : Precedes a b) {c : Address} (hbc : b <:+ c) : Precedes a c := by
  rcases h with ⟨hs, hne⟩ | h
  · refine .inl ⟨hs.trans hbc, ?_⟩
    rintro rfl
    exact hne (hs.eq_of_length_le hbc.length_le)
  · exact .inr (h.mono List.suffix_rfl hbc)

end Precedes

end Address

namespace Place

theorem address_root (tree : Node) : (root tree).address = [] := rfl

theorem address_childAt (p : Place) (i : Nat) (n : Node) :
    (p.childAt i n).address = i :: p.address := rfl

/-- The places of a tree. -/
inductive Of (tree : Node) : Place → Prop
  | top : Of tree (root tree)
  | child {p : Place} {i : Nat} {n : Node} :
      Of tree p → p.node.children[i]? = some n → Of tree (p.childAt i n)

variable {tree : Node} {p q : Place}

theorem of_cons_iff {m n : Node} {i : Nat} {rest : List (Node × Nat)} :
    Of tree ⟨m, (n, i) :: rest⟩ ↔ Of tree ⟨n, rest⟩ ∧ n.children[i]? = some m := by
  constructor
  · intro h
    cases h with
    | child h hi => exact ⟨h, hi⟩
  · rintro ⟨h, hi⟩
    exact h.child hi

theorem Of.eq_of_address (hp : Of tree p) (hq : Of tree q) (h : p.address = q.address) :
    p = q := by
  induction hp generalizing q with
  | top =>
    cases hq with
    | top => rfl
    | child hq hi => simp [address_root, address_childAt] at h
  | child hp hi ih =>
    cases hq with
    | top => simp [address_root, address_childAt] at h
    | child hq hj =>
      simp only [address_childAt, List.cons.injEq] at h
      obtain ⟨rfl, h⟩ := h
      obtain rfl := ih hq h
      rw [hi] at hj
      cases hj
      rfl

/-- Every address above a place of the tree is that of a place. -/
theorem Of.exists_above (hp : Of tree p) {a : Address} (h : a <:+ p.address) :
    ∃ q, Of tree q ∧ q.address = a := by
  induction hp with
  | top =>
    refine ⟨Place.root tree, .top, ?_⟩
    simpa [address_root, eq_comm] using h
  | @child p i n hp hi ih =>
    rw [address_childAt, List.suffix_cons_iff] at h
    rcases h with h | h
    · exact ⟨p.childAt i n, hp.child hi, h.symm⟩
    · exact ih h

theorem of_parent (hp : Of tree p) (h : p.parent? = some q) :
    Of tree q ∧ ∃ i, p = q.childAt i p.node ∧ q.node.children[i]? = some p.node := by
  obtain ⟨m, above⟩ := p
  cases above with
  | nil => simp [parent?] at h
  | cons a rest =>
    obtain ⟨n, i⟩ := a
    simp only [parent?, Option.some.injEq] at h
    subst h
    obtain ⟨hq, hi⟩ := of_cons_iff.1 hp
    exact ⟨hq, i, rfl, hi⟩

theorem suffix_of_parent (h : p.parent? = some q) : q.address <:+ p.address := by
  obtain ⟨m, above⟩ := p
  cases above with
  | nil => simp [parent?] at h
  | cons a rest =>
    simp only [parent?, Option.some.injEq] at h
    subst h
    exact List.suffix_cons a.2 _

theorem parent?_childAt (p : Place) (i : Nat) (n : Node) : (p.childAt i n).parent? = some p := rfl

theorem mem_children {c : Place} :
    c ∈ p.children ↔ ∃ i n, p.node.children[i]? = some n ∧ c = p.childAt i n := by
  simp only [children, List.mem_mapIdx, List.getElem?_eq_some_iff]
  constructor
  · rintro ⟨i, hi, rfl⟩
    exact ⟨i, _, ⟨hi, rfl⟩, rfl⟩
  · rintro ⟨i, n, ⟨hi, rfl⟩, rfl⟩
    exact ⟨i, hi, rfl⟩

theorem exists_getElem?_of_mem_children {c : Place} (hc : c ∈ p.children) :
    ∃ i : Nat, p.node.children[i]? = some c.node := by
  obtain ⟨i, n, hi, rfl⟩ := mem_children.1 hc
  exact ⟨i, hi⟩

theorem Of.of_mem_children (hp : Of tree p) {c : Place} (hc : c ∈ p.children) : Of tree c := by
  obtain ⟨i, n, hi, rfl⟩ := mem_children.1 hc
  exact hp.child hi

theorem address_of_mem_children {c : Place} (hc : c ∈ p.children) :
    ∃ i, c.address = i :: p.address := by
  obtain ⟨i, n, -, rfl⟩ := mem_children.1 hc
  exact ⟨i, rfl⟩

theorem suffix_of_mem_children {c : Place} (hc : c ∈ p.children) : p.address <:+ c.address := by
  obtain ⟨i, h⟩ := address_of_mem_children hc
  exact h ▸ List.suffix_cons i _

theorem pairwise_children (p : Place) :
    p.children.Pairwise fun a b => Address.Before a.address b.address := by
  rw [List.pairwise_iff_getElem]
  intro i j hi hj hij
  simp only [children, List.getElem_mapIdx]
  exact .of_children hij List.suffix_rfl List.suffix_rfl

theorem child?_node (p : Place) (field : String) :
    (p.child? field).map (·.node) = p.node.child? field := by
  simp only [child?, Node.child?, ← children_nodes, List.find?_map]
  rfl

theorem mem_children_of_child? {field : String} {c : Place} (h : p.child? field = some c) :
    c ∈ p.children := List.mem_of_find?_eq_some h

theorem mem_children_of_mem_namedChildren {c : Place} (h : c ∈ p.namedChildren) :
    c ∈ p.children := List.mem_of_mem_filter h

theorem isNamed_of_mem_namedChildren {c : Place} (h : c ∈ p.namedChildren) : c.node.isNamed := by
  simpa [namedChildren] using (List.mem_filter.1 h).2

/-- What lies below a place is the place or lies below one of its children. -/
theorem Of.eq_or_below (hp : Of tree p) (hq : Of tree q) (h : p.address <:+ q.address) :
    q = p ∨ ∃ i n, p.node.children[i]? = some n ∧ (p.childAt i n).address <:+ q.address := by
  obtain ⟨t, ht⟩ := h
  rcases List.eq_nil_or_concat t with rfl | ⟨t, i, rfl⟩
  · exact .inl (hq.eq_of_address hp ht.symm)
  · have hi : i :: p.address <:+ q.address := ⟨t, by simpa using ht⟩
    obtain ⟨c, hc, hci⟩ := hq.exists_above hi
    cases hc with
    | top => simp [address_root] at hci
    | @child p' j n hp' hn =>
      simp only [address_childAt, List.cons.injEq] at hci
      obtain ⟨rfl, hpp⟩ := hci
      obtain rfl := hp'.eq_of_address hp hpp
      exact .inr ⟨j, n, hn, hi⟩

theorem Of.eq_of_isLeaf (hp : Of tree p) (hq : Of tree q) (hleaf : p.node.isLeaf = true)
    (h : p.address <:+ q.address) : q = p := by
  refine (hp.eq_or_below hq h).resolve_right ?_
  rintro ⟨i, n, hi, -⟩
  rw [Node.isLeaf, List.isEmpty_iff] at hleaf
  simp [hleaf] at hi

mutual
theorem of_mem_preorderFrom {above : List (Node × Nat)} {n : Node} (hn : Of tree ⟨n, above⟩)
    (hp : p ∈ preorderFrom above n) : Of tree p := by
  cases n with
  | mk l cs =>
    rw [preorderFrom, List.mem_cons] at hp
    rcases hp with rfl | hp
    · exact hn
    · exact of_mem_preorderAllFrom hn (by simp [Node.children]) hp

theorem of_mem_preorderAllFrom {parent : Node} {above : List (Node × Nat)} {i : Nat}
    {ns : List Node} (hn : Of tree ⟨parent, above⟩) (hi : parent.children.drop i = ns)
    (hp : p ∈ preorderAllFrom parent above i ns) : Of tree p := by
  cases ns with
  | nil => simp [preorderAllFrom] at hp
  | cons n rest =>
    rw [preorderAllFrom, List.mem_append] at hp
    have hget : parent.children[i]? = some n := by
      rw [← List.head?_drop, hi, List.head?_cons]
    rcases hp with hp | hp
    · exact of_mem_preorderFrom (hn.child hget) hp
    · exact of_mem_preorderAllFrom hn (by rw [← List.tail_drop, hi, List.tail_cons]) hp
end

mutual
theorem mem_preorderFrom_child {above : List (Node × Nat)} {n : Node} {i : Nat} {m : Node}
    (hp : p ∈ preorderFrom above n) (hi : p.node.children[i]? = some m) :
    p.childAt i m ∈ preorderFrom above n := by
  cases n with
  | mk l cs =>
    rw [preorderFrom, List.mem_cons] at hp ⊢
    right
    rcases hp with rfl | hp
    · have h : ⟨m, (.mk l cs, 0 + i) :: above⟩ ∈ preorderAllFrom (.mk l cs) above 0 cs :=
        mem_preorderAllFrom_self (by simpa [Node.children] using hi)
      rwa [Nat.zero_add] at h
    · exact mem_preorderAllFrom_child hp hi

theorem mem_preorderAllFrom_child {parent : Node} {above : List (Node × Nat)} {k : Nat}
    {ns : List Node} {i : Nat} {m : Node} (hp : p ∈ preorderAllFrom parent above k ns)
    (hi : p.node.children[i]? = some m) : p.childAt i m ∈ preorderAllFrom parent above k ns := by
  cases ns with
  | nil => simp [preorderAllFrom] at hp
  | cons n rest =>
    rw [preorderAllFrom, List.mem_append] at hp ⊢
    exact hp.imp (mem_preorderFrom_child · hi) (mem_preorderAllFrom_child · hi)

theorem mem_preorderAllFrom_self {parent : Node} {above : List (Node × Nat)} {k i : Nat}
    {ns : List Node} {m : Node} (hi : ns[i]? = some m) :
    ⟨m, (parent, k + i) :: above⟩ ∈ preorderAllFrom parent above k ns := by
  cases ns with
  | nil => simp at hi
  | cons n rest =>
    rw [preorderAllFrom, List.mem_append]
    cases i with
    | zero =>
      left
      simp only [List.getElem?_cons_zero, Option.some.injEq] at hi
      subst hi
      cases n with
      | mk l cs => simp [preorderFrom]
    | succ i =>
      right
      have h : ⟨m, (parent, k + 1 + i) :: above⟩ ∈ preorderAllFrom parent above (k + 1) rest :=
        mem_preorderAllFrom_self (by simpa using hi)
      rwa [Nat.add_right_comm] at h
end

mutual
theorem suffix_of_mem_preorderFrom {above : List (Node × Nat)} {n : Node}
    (hp : p ∈ preorderFrom above n) : address ⟨n, above⟩ <:+ p.address := by
  cases n with
  | mk l cs =>
    rw [preorderFrom, List.mem_cons] at hp
    rcases hp with rfl | hp
    · exact List.suffix_rfl
    · obtain ⟨j, -, hj⟩ := suffix_of_mem_preorderAllFrom hp
      exact (List.suffix_cons j _).trans hj

theorem suffix_of_mem_preorderAllFrom {parent : Node} {above : List (Node × Nat)} {i : Nat}
    {ns : List Node} (hp : p ∈ preorderAllFrom parent above i ns) :
    ∃ j, i ≤ j ∧ j :: address ⟨parent, above⟩ <:+ p.address := by
  cases ns with
  | nil => simp [preorderAllFrom] at hp
  | cons n rest =>
    rw [preorderAllFrom, List.mem_append] at hp
    rcases hp with hp | hp
    · exact ⟨i, le_rfl, suffix_of_mem_preorderFrom hp⟩
    · obtain ⟨j, hij, hj⟩ := suffix_of_mem_preorderAllFrom hp
      exact ⟨j, Nat.le_of_succ_le hij, hj⟩
end

mutual
theorem pairwise_preorderFrom (above : List (Node × Nat)) (n : Node) :
    (preorderFrom above n).Pairwise fun a b => Address.Precedes a.address b.address := by
  cases n with
  | mk l cs =>
    rw [preorderFrom, List.pairwise_cons]
    refine ⟨fun q hq => ?_, pairwise_preorderAllFrom _ above 0 cs⟩
    obtain ⟨j, -, hj⟩ := suffix_of_mem_preorderAllFrom hq
    refine .inl ⟨(List.suffix_cons j _).trans hj, ?_⟩
    intro heq
    rw [← heq] at hj
    exact Address.not_cons_suffix j _ hj

theorem pairwise_preorderAllFrom (parent : Node) (above : List (Node × Nat)) (i : Nat)
    (ns : List Node) : (preorderAllFrom parent above i ns).Pairwise
      fun a b => Address.Precedes a.address b.address := by
  cases ns with
  | nil => exact List.Pairwise.nil
  | cons n rest =>
    rw [preorderAllFrom, List.pairwise_append]
    refine ⟨pairwise_preorderFrom _ n, pairwise_preorderAllFrom parent above (i + 1) rest, ?_⟩
    intro a ha b hb
    obtain ⟨j, hij, hj⟩ := suffix_of_mem_preorderAllFrom hb
    exact .inr (.of_children hij (suffix_of_mem_preorderFrom ha) hj)
end

/-- The places of a tree come in document order. -/
theorem pairwise_preorder (tree : Node) :
    (preorder tree).Pairwise fun a b => Address.Precedes a.address b.address :=
  pairwise_preorderFrom [] tree

/-- What lies above a place is the place or one of its ancestors. -/
theorem Of.node_mem_of_suffix (hp : Of tree p) (hq : Of tree q) (h : q.address <:+ p.address) :
    q.node ∈ p.node :: p.ancestors := by
  induction hp with
  | top =>
    have hroot : q.address = (root tree).address := by simpa [address_root] using h
    rw [hq.eq_of_address .top hroot]
    exact List.mem_cons_self
  | @child p i n hp hi ih =>
    rw [address_childAt, List.suffix_cons_iff] at h
    rcases h with h | h
    · rw [hq.eq_of_address (hp.child hi) h]
      exact List.mem_cons_self
    · exact List.mem_cons_of_mem _ (ih h)

theorem mem_preorder : p ∈ preorder tree ↔ Of tree p := by
  constructor
  · exact of_mem_preorderFrom .top
  · intro h
    induction h with
    | top =>
      cases tree with
      | mk l cs => simp [preorder, preorderFrom, Place.root]
    | child hp hi ih => exact mem_preorderFrom_child ih hi

end Place

end Deadwood
