import Deadwood.Proofs.Syntax.Address

/-!
Walks that do not look below some nodes, place by place. From a place, such a walk comes to what
lies at or below it, save where a node on the way is refused (`preorderWhileFrom_eq_filter`).
-/
namespace Deadwood.Place

variable {tree : Node} {p q : Place} {enters : Node → Bool} {above : List (Node × Nat)} {n : Node}

mutual
def preorderWhileFrom (enters : Node → Bool) (above : List (Node × Nat)) : Node → List Place
  | .mk l cs => ⟨.mk l cs, above⟩ ::
      if enters (.mk l cs) then preorderAllWhileFrom enters (.mk l cs) above 0 cs else []

def preorderAllWhileFrom (enters : Node → Bool) (parent : Node) (above : List (Node × Nat))
    (i : Nat) : List Node → List Place
  | [] => []
  | n :: rest => preorderWhileFrom enters ((parent, i) :: above) n ++
      preorderAllWhileFrom enters parent above (i + 1) rest
end

mutual
theorem preorderWhileFrom_nodes (enters : Node → Bool) (above : List (Node × Nat)) (n : Node) :
    (preorderWhileFrom enters above n).map (·.node) = n.preorderWhile enters := by
  cases n with
  | mk l cs =>
    rw [preorderWhileFrom, Node.preorderWhile, List.map_cons]
    split
    · rw [preorderAllWhileFrom_nodes]
    · rfl

theorem preorderAllWhileFrom_nodes (enters : Node → Bool) (parent : Node)
    (above : List (Node × Nat)) (i : Nat) (ns : List Node) :
    (preorderAllWhileFrom enters parent above i ns).map (·.node) =
      Node.preorderAllWhile enters ns := by
  cases ns with
  | nil => rfl
  | cons n rest =>
    rw [preorderAllWhileFrom, Node.preorderAllWhile, List.map_append, preorderWhileFrom_nodes,
      preorderAllWhileFrom_nodes]
end

/-! ## The way between two places -/

mutual
theorem above_suffix_of_mem_preorderFrom {above : List (Node × Nat)} {n : Node}
    (hp : p ∈ preorderFrom above n) : above <:+ p.above := by
  cases n with
  | mk l cs =>
    rw [preorderFrom, List.mem_cons] at hp
    rcases hp with rfl | hp
    · exact List.suffix_rfl
    · obtain ⟨i, hi⟩ := above_suffix_of_mem_preorderAllFrom hp
      exact (List.suffix_cons _ _).trans hi

theorem above_suffix_of_mem_preorderAllFrom {parent : Node} {above : List (Node × Nat)} {i : Nat}
    {ns : List Node} (hp : p ∈ preorderAllFrom parent above i ns) :
    ∃ j, (parent, j) :: above <:+ p.above := by
  cases ns with
  | nil => simp [preorderAllFrom] at hp
  | cons n rest =>
    rw [preorderAllFrom, List.mem_append] at hp
    rcases hp with hp | hp
    · exact ⟨i, above_suffix_of_mem_preorderFrom hp⟩
    · exact above_suffix_of_mem_preorderAllFrom hp
end

theorem self_mem_preorderFrom (above : List (Node × Nat)) (n : Node) :
    ⟨n, above⟩ ∈ preorderFrom above n := by
  cases n with
  | mk l cs => exact List.mem_cons_self

/-- What lies at or below a place of a tree is what is listed from there. -/
theorem Of.mem_preorderFrom_iff (hq : Of tree q) (hp : Of tree p) :
    p ∈ preorderFrom q.above q.node ↔ q.address <:+ p.address := by
  refine ⟨suffix_of_mem_preorderFrom, fun h => ?_⟩
  induction hp with
  | top =>
    have hroot : q.address = (Place.root tree).address := by simpa [address_root] using h
    rw [hq.eq_of_address .top hroot]
    exact mem_preorder.2 .top
  | @child p i m hp hi ih =>
    rw [address_childAt, List.suffix_cons_iff] at h
    rcases h with h | h
    · rw [hq.eq_of_address (hp.child hi) h]
      exact self_mem_preorderFrom _ _
    · exact mem_preorderFrom_child (ih h) hi

/-- The ancestors of a place, nearest first, as far as some that lie above them all. -/
def ancestorsBelow (above : List (Node × Nat)) (p : Place) : List Node :=
  (p.above.take (p.above.length - above.length)).map (·.1)

theorem ancestorsBelow_append (t above : List (Node × Nat)) (n : Node) :
    ancestorsBelow above ⟨n, t ++ above⟩ = t.map (·.1) := by
  simp [ancestorsBelow]

theorem ancestorsBelow_of_suffix {a : Node × Nat} (h : a :: above <:+ p.above) :
    ancestorsBelow above p = ancestorsBelow (a :: above) p ++ [a.1] := by
  obtain ⟨m, up⟩ := p
  obtain ⟨t, rfl⟩ := h
  rw [ancestorsBelow_append, List.append_cons, ancestorsBelow_append, List.map_append]
  rfl

mutual
/-- A walk misses exactly what lies below a node that it does not enter. -/
theorem preorderWhileFrom_eq_filter (enters : Node → Bool) (above : List (Node × Nat)) (n : Node) :
    preorderWhileFrom enters above n =
      (preorderFrom above n).filter fun p => (ancestorsBelow above p).all enters := by
  cases n with
  | mk l cs =>
    have hself : ancestorsBelow above ⟨.mk l cs, above⟩ = [] := ancestorsBelow_append [] above _
    rw [preorderWhileFrom, preorderFrom, List.filter_cons_of_pos (by rw [hself]; rfl),
      filter_preorderAllFrom]

theorem filter_preorderAllFrom (enters : Node → Bool) (parent : Node) (above : List (Node × Nat))
    (i : Nat) (ns : List Node) :
    ((preorderAllFrom parent above i ns).filter fun p => (ancestorsBelow above p).all enters) =
      if enters parent then preorderAllWhileFrom enters parent above i ns else [] := by
  cases ns with
  | nil => simp [preorderAllFrom, preorderAllWhileFrom]
  | cons n rest =>
    have hfirst : ∀ p ∈ preorderFrom ((parent, i) :: above) n, (ancestorsBelow above p).all enters =
        ((ancestorsBelow ((parent, i) :: above) p).all enters && enters parent) := fun p hp => by
      rw [ancestorsBelow_of_suffix (above_suffix_of_mem_preorderFrom hp), List.all_append]
      simp
    rw [preorderAllFrom, List.filter_append, filter_preorderAllFrom enters parent above (i + 1),
      List.filter_congr hfirst, preorderAllWhileFrom, preorderWhileFrom_eq_filter enters]
    by_cases henters : enters parent = true
    · simp [henters]
    · simp [henters]
end

theorem mem_preorderWhileFrom : p ∈ preorderWhileFrom enters above n ↔
    p ∈ preorderFrom above n ∧ ∀ m ∈ ancestorsBelow above p, enters m = true := by
  rw [preorderWhileFrom_eq_filter, List.mem_filter, List.all_eq_true]

theorem nodup_preorderFrom (above : List (Node × Nat)) (n : Node) : (preorderFrom above n).Nodup :=
  (pairwise_preorderFrom above n).imp fun h heq => h.ne (congrArg address heq)

theorem nodup_preorder (tree : Node) : (preorder tree).Nodup := nodup_preorderFrom [] tree

theorem nodup_preorderWhileFrom (enters : Node → Bool) (above : List (Node × Nat)) (n : Node) :
    (preorderWhileFrom enters above n).Nodup := by
  rw [preorderWhileFrom_eq_filter]
  exact (nodup_preorderFrom above n).filter _

end Deadwood.Place
