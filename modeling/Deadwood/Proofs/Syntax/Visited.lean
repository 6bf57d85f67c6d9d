import Deadwood.Syntax.Place

/-!
The places that a walk comes to, in the order in which it visits them.
-/
namespace Deadwood.Place

variable {σ : Type}

mutual
def visitedFrom (visit : σ → Place → σ) (enters : σ → Place → Bool) (above : List (Node × Nat))
    (s : σ) : Node → List Place
  | .mk l cs =>
    let s := visit s ⟨.mk l cs, above⟩
    ⟨.mk l cs, above⟩ ::
      if enters s ⟨.mk l cs, above⟩ then visitedAllFrom visit enters (.mk l cs) above 0 s cs else []

def visitedAllFrom (visit : σ → Place → σ) (enters : σ → Place → Bool) (parent : Node)
    (above : List (Node × Nat)) (i : Nat) (s : σ) : List Node → List Place
  | [] => []
  | n :: rest =>
    visitedFrom visit enters ((parent, i) :: above) s n ++
      visitedAllFrom visit enters parent above (i + 1)
        (walkFrom visit enters ((parent, i) :: above) s n) rest
end

def visited (visit : σ → Place → σ) (enters : σ → Place → Bool) (s : σ) (tree : Node) :
    List Place := visitedFrom visit enters [] s tree

mutual
theorem walkFrom_eq_foldl (visit : σ → Place → σ) (enters : σ → Place → Bool)
    (above : List (Node × Nat)) (s : σ) (n : Node) :
    walkFrom visit enters above s n = (visitedFrom visit enters above s n).foldl visit s := by
  cases n with
  | mk l cs =>
    rw [walkFrom, visitedFrom, List.foldl_cons]
    split
    · exact walkAllFrom_eq_foldl visit enters _ above 0 _ cs
    · rfl

theorem walkAllFrom_eq_foldl (visit : σ → Place → σ) (enters : σ → Place → Bool) (parent : Node)
    (above : List (Node × Nat)) (i : Nat) (s : σ) (ns : List Node) :
    walkAllFrom visit enters parent above i s ns =
      (visitedAllFrom visit enters parent above i s ns).foldl visit s := by
  cases ns with
  | nil => rfl
  | cons n rest =>
    rw [walkAllFrom, visitedAllFrom, List.foldl_append,
      walkAllFrom_eq_foldl visit enters parent above (i + 1), walkFrom_eq_foldl]
end

/-- A walk visits these places and no other. -/
theorem walk_eq_foldl (visit : σ → Place → σ) (enters : σ → Place → Bool) (s : σ) (tree : Node) :
    walk visit enters s tree = (visited visit enters s tree).foldl visit s :=
  walkFrom_eq_foldl visit enters [] s tree

end Deadwood.Place
