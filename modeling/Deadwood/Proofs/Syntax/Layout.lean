import Deadwood.Proofs.Syntax.Address

/-!
Trees whose ranges nest and whose siblings follow one another. In such a tree a place covers those
below it, and of two places on different ways down one ends before the other starts.
-/
namespace Deadwood

namespace Node

mutual
/-- Children lie within their parent, in order and without overlap. -/
def isLaidOut : Node → Bool
  | .mk l cs => areLaidOut l.start l.stop cs

def areLaidOut (start stop : Nat) : List Node → Bool
  | [] => decide (start ≤ stop)
  | n :: rest => decide (start ≤ n.start) && n.isLaidOut && areLaidOut n.stop stop rest
end

theorem isLaidOut_eq (n : Node) : n.isLaidOut = areLaidOut n.start n.stop n.children := by
  cases n
  rw [isLaidOut]
  rfl

theorem areLaidOut_cons {start stop : Nat} {n : Node} {rest : List Node} :
    areLaidOut start stop (n :: rest) = true ↔
      start ≤ n.start ∧ n.isLaidOut = true ∧ areLaidOut n.stop stop rest = true := by
  simp [areLaidOut, and_assoc]

mutual
theorem start_le_stop {n : Node} (h : n.isLaidOut = true) : n.start ≤ n.stop := by
  cases n with
  | mk l cs =>
    rw [isLaidOut] at h
    exact le_of_areLaidOut h

theorem le_of_areLaidOut {start stop : Nat} {ns : List Node}
    (h : areLaidOut start stop ns = true) : start ≤ stop := by
  cases ns with
  | nil => simpa [areLaidOut] using h
  | cons n rest =>
    obtain ⟨hstart, hn, hrest⟩ := areLaidOut_cons.1 h
    exact (hstart.trans (start_le_stop hn)).trans (le_of_areLaidOut hrest)
end

theorem areLaidOut_getElem? {start stop i : Nat} {ns : List Node} {n : Node}
    (h : areLaidOut start stop ns = true) (hi : ns[i]? = some n) :
    start ≤ n.start ∧ n.isLaidOut = true ∧ n.stop ≤ stop := by
  induction ns generalizing start i with
  | nil => simp at hi
  | cons m rest ih =>
    obtain ⟨hstart, hm, hrest⟩ := areLaidOut_cons.1 h
    cases i with
    | zero =>
      simp only [List.getElem?_cons_zero, Option.some.injEq] at hi
      subst hi
      exact ⟨hstart, hm, le_of_areLaidOut hrest⟩
    | succ i =>
      obtain ⟨h1, h2, h3⟩ := ih hrest (by simpa using hi)
      exact ⟨(hstart.trans (start_le_stop hm)).trans h1, h2, h3⟩

theorem stop_le_start_of_areLaidOut {start stop i j : Nat} {ns : List Node} {m n : Node}
    (h : areLaidOut start stop ns = true) (hij : i < j) (hi : ns[i]? = some m)
    (hj : ns[j]? = some n) : m.stop ≤ n.start := by
  induction ns generalizing start i j with
  | nil => simp at hi
  | cons k rest ih =>
    obtain ⟨-, -, hrest⟩ := areLaidOut_cons.1 h
    obtain ⟨j, rfl⟩ : ∃ j', j = j' + 1 := ⟨j - 1, by omega⟩
    rw [List.getElem?_cons_succ] at hj
    cases i with
    | zero =>
      simp only [List.getElem?_cons_zero, Option.some.injEq] at hi
      subst hi
      exact (areLaidOut_getElem? hrest hj).1
    | succ i =>
      rw [List.getElem?_cons_succ] at hi
      exact ih hrest (Nat.lt_of_succ_lt_succ hij) hi hj

end Node

namespace Place

variable {tree : Node} {p q r : Place}

theorem Of.isLaidOut (hp : Of tree p) (h : tree.isLaidOut) : p.node.isLaidOut = true := by
  induction hp with
  | top => exact h
  | child hp hi ih =>
    rw [Node.isLaidOut_eq] at ih
    exact (Node.areLaidOut_getElem? ih hi).2.1

theorem Of.start_le_stop (hp : Of tree p) (h : tree.isLaidOut) : p.node.start ≤ p.node.stop :=
  Node.start_le_stop (hp.isLaidOut h)

theorem Of.child_within (hp : Of tree p) (h : tree.isLaidOut) {i : Nat} {n : Node}
    (hi : p.node.children[i]? = some n) : p.node.start ≤ n.start ∧ n.stop ≤ p.node.stop := by
  have hl := hp.isLaidOut h
  rw [Node.isLaidOut_eq] at hl
  obtain ⟨hstart, -, hstop⟩ := Node.areLaidOut_getElem? hl hi
  exact ⟨hstart, hstop⟩

/-- A place covers what lies below it. -/
theorem Of.within (hq : Of tree q) (hp : Of tree p) (h : tree.isLaidOut)
    (hpq : p.address <:+ q.address) : p.node.start ≤ q.node.start ∧ q.node.stop ≤ p.node.stop := by
  induction hq with
  | top =>
    have hroot : p.address = (root tree).address := by simpa [address_root] using hpq
    rw [hp.eq_of_address .top hroot]
    exact ⟨le_rfl, le_rfl⟩
  | @child q i n hq hi ih =>
    rw [address_childAt, List.suffix_cons_iff] at hpq
    rcases hpq with heq | hpq
    · rw [hp.eq_of_address (hq.child hi) heq]
      exact ⟨le_rfl, le_rfl⟩
    · obtain ⟨hstart, hstop⟩ := ih hpq
      obtain ⟨hstart', hstop'⟩ := hq.child_within h hi
      exact ⟨hstart.trans hstart', hstop'.trans hstop⟩

theorem Of.covers_children (hp : Of tree p) (h : tree.isLaidOut) (hq : q ∈ p.children) :
    p.node.start ≤ q.node.start ∧ q.node.stop ≤ p.node.stop := by
  obtain ⟨i, n, hi, rfl⟩ := mem_children.1 hq
  exact hp.child_within h hi

/-- A place ends before any that lies after it starts. -/
theorem Of.stop_le_start (hp : Of tree p) (hq : Of tree q) (h : tree.isLaidOut)
    (hpq : Address.Before p.address q.address) : p.node.stop ≤ q.node.start := by
  -- Both lie below children of one node, and those come in order.
  obtain ⟨c, i, j, hij, hi, hj⟩ := hpq
  obtain ⟨pi, hpi, hpi'⟩ := hp.exists_above hi
  obtain ⟨qj, hqj, hqj'⟩ := hq.exists_above hj
  obtain ⟨r, hr, hr'⟩ := hp.exists_above ((List.suffix_cons i c).trans hi)
  have hsibling : pi.node.stop ≤ qj.node.start := by
    have key : ∀ {s : Place} {k : Nat}, Of tree s → s.address = k :: c →
        r.node.children[k]? = some s.node := by
      intro s k hs hk
      cases hs with
      | top => simp [address_root] at hk
      | child hs hi =>
        simp only [address_childAt, List.cons.injEq] at hk
        obtain ⟨rfl, hk⟩ := hk
        rw [hr.eq_of_address hs (hr'.trans hk.symm)]
        exact hi
    have hl := hr.isLaidOut h
    rw [Node.isLaidOut_eq] at hl
    exact Node.stop_le_start_of_areLaidOut hl hij (key hpi hpi') (key hqj hqj')
  have h1 := (hp.within hpi h (hpi' ▸ hi)).2
  have h2 := (hq.within hqj h (hqj' ▸ hj)).1
  exact (h1.trans hsibling).trans h2

/-- Places on different ways down do not overlap. -/
theorem Of.apart (hp : Of tree p) (hq : Of tree q) (h : tree.isLaidOut)
    (hpq : ¬ p.address <:+ q.address) (hqp : ¬ q.address <:+ p.address) :
    p.node.stop ≤ q.node.start ∨ q.node.stop ≤ p.node.start := by
  rcases Address.suffix_or_before p.address q.address with hs | hs | hb | hb
  · exact absurd hs hpq
  · exact absurd hs hqp
  · exact .inl (hp.stop_le_start hq h hb)
  · exact .inr (hq.stop_le_start hp h hb)

theorem Of.pairwise_children (hp : Of tree p) (h : tree.isLaidOut) :
    p.children.Pairwise fun a b => a.node.stop ≤ b.node.start := by
  refine (Place.pairwise_children p).imp_of_mem ?_
  intro a b ha hb hab
  exact (hp.of_mem_children ha).stop_le_start (hp.of_mem_children hb) h hab

/-- Two children lie apart, and so does what is below them. -/
theorem Of.apart_of_children (hr : Of tree r) (h : tree.isLaidOut) (hp : p ∈ r.children)
    (hq : q ∈ r.children) (hne : p.address ≠ q.address) :
    p.node.stop ≤ q.node.start ∨ q.node.stop ≤ p.node.start := by
  obtain ⟨i, hi⟩ := address_of_mem_children hp
  obtain ⟨j, hj⟩ := address_of_mem_children hq
  have hne' : i ≠ j := fun hij => hne (by rw [hi, hj, hij])
  refine (hr.of_mem_children hp).apart (hr.of_mem_children hq) h ?_ ?_
  · intro hs
    rw [hi, hj] at hs
    exact hne' (Address.eq_of_cons_suffix hs List.suffix_rfl)
  · intro hs
    rw [hi, hj] at hs
    exact hne' (Address.eq_of_cons_suffix List.suffix_rfl hs)

theorem Of.children_ordered (hp : Of tree p) (h : tree.isLaidOut) {i j : Nat} {m n : Node}
    (hij : i ≤ j) (hi : p.node.children[i]? = some m) (hj : p.node.children[j]? = some n) :
    m.start ≤ n.start ∧ m.stop ≤ n.stop := by
  rcases Nat.lt_or_eq_of_le hij with hij | rfl
  · have hm := (hp.child hi).start_le_stop h
    have hn := (hp.child hj).start_le_stop h
    have hmn := (hp.child hi).stop_le_start (hp.child hj) h
      (.of_children hij List.suffix_rfl List.suffix_rfl)
    exact ⟨hm.trans hmn, hmn.trans hn⟩
  · rw [hi, Option.some.injEq] at hj
    exact hj ▸ ⟨le_rfl, le_rfl⟩

/-- What is not above a row of siblings lies before it, after it or below one of them. -/
theorem Of.outside_or_below (hp : Of tree p) (hq : Of tree q) (h : tree.isLaidOut)
    (hqp : ¬ q.address <:+ p.address) {i j : Nat} {first last : Node}
    (hi : p.node.children[i]? = some first) (hj : p.node.children[j]? = some last) :
    q.node.stop ≤ first.start ∨ last.stop ≤ q.node.start ∨
      ∃ k n, i ≤ k ∧ k ≤ j ∧ p.node.children[k]? = some n ∧
        (p.childAt k n).address <:+ q.address := by
  have hfirst := hp.child hi
  have hlast := hp.child hj
  rcases Address.suffix_or_before q.address p.address with hs | hs | hb | hb
  · exact absurd hs hqp
  · -- Below the parent: the child that leads there is before, after or in the row.
    rcases hp.eq_or_below hq hs with rfl | ⟨k, n, hn, hk⟩
    · exact absurd List.suffix_rfl hqp
    rcases lt_or_ge k i with hki | hik
    · exact .inl (hq.stop_le_start hfirst h (.of_children hki hk List.suffix_rfl))
    rcases lt_or_ge j k with hjk | hkj
    · exact .inr (.inl (hlast.stop_le_start hq h (.of_children hjk List.suffix_rfl hk)))
    exact .inr (.inr ⟨k, n, hik, hkj, hn, hk⟩)
  · exact .inl (hq.stop_le_start hfirst h (hb.mono List.suffix_rfl (List.suffix_cons i _)))
  · exact .inr (.inl (hlast.stop_le_start hq h (hb.mono (List.suffix_cons j _) List.suffix_rfl)))

end Place

end Deadwood
