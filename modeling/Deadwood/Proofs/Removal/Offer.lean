import Deadwood.Proofs.Removal.Walk
import Deadwood.Proofs.Syntax.Pruned
import Deadwood.Proofs.Syntax.Stack

/-!
The walk that makes a plan, as a stack of places still to come. It does what the walk along the tree
does (`ofTree_eq_foldlM`), and a place is offered to its handler if none of its ancestors was ever
replaced, each once and in document order.
-/
namespace Deadwood

namespace Place

variable {σ : Type} {visit : σ → Place → σ} {enters : σ → Place → Bool}

/-- A walk goes through the children of a place one after another. -/
theorem walkAllFrom_eq_foldl_mapIdx (parent : Node) (above : List (Node × Nat)) (i : Nat) (s : σ)
    (ns : List Node) : walkAllFrom visit enters parent above i s ns =
      (ns.mapIdx fun j n => (⟨n, (parent, i + j) :: above⟩ : Place)).foldl
        (fun s p => walkFrom visit enters p.above s p.node) s := by
  induction ns generalizing i s with
  | nil => rfl
  | cons n rest ih =>
    rw [walkAllFrom, List.mapIdx_cons, List.foldl_cons, ih]
    simp only [Nat.add_zero, Nat.add_assoc, Nat.add_comm 1]

theorem walkFrom_eq_foldl_children (p : Place) (s : σ) :
    walkFrom visit enters p.above s p.node =
      if enters (visit s p) p then
        p.children.foldl (fun s p => walkFrom visit enters p.above s p.node) (visit s p)
      else visit s p := by
  obtain ⟨⟨l, cs⟩, above⟩ := p
  rw [walkFrom]
  simp only [walkAllFrom_eq_foldl_mapIdx, Nat.zero_add]
  rfl

end Place

namespace Plan

variable {t : Targets} {source : Bytes} {tree : Node} {p : Place} {s : Progress}

/-- The places offered to the handlers, each with what has been planned and replaced once it is
handled. -/
def offers (t : Targets) (source : Bytes) (tree : Node) :
    List (Place × Except Utf8.Fault Progress) :=
  Place.offered (fun s p => visit t source (.ok s) p) (fun s p => enters (.ok s) p) {} tree

theorem marksBelow_visit (t : Targets) (source : Bytes) :
    Place.MarksBelow (fun s p => visit t source (.ok s) p) Progress.replaced where
  keeps h a ha := by
    obtain ⟨c, -, rfl⟩ := visit_eq_ok h
    exact List.mem_append_left _ ha
  below h a ha := by
    obtain ⟨c, hc, rfl⟩ := visit_eq_ok h
    rw [Progress.add, List.mem_append, List.mem_map] at ha
    refine ha.imp_right fun ⟨r, hr, hra⟩ => ?_
    exact hra ▸ (form_of_change hc).suffix_of_mem_replaced hr

theorem foldlM_offer (s : Progress) (stack : List Place) :
    ((Place.offer (fun s p => visit t source (.ok s) p) (fun s p => enters (.ok s) p) s stack).map
        (·.1)).foldlM (fun s p => visit t source (.ok s) p) s =
      stack.foldl (fun r p => Place.walkFrom (visit t source) enters p.above r p.node) (.ok s) := by
  induction s, stack using Place.offer.induct fun s p => enters (.ok s) p with
  | case1 s =>
    rw [Place.offer]
    rfl
  | case2 s p rest ih =>
    rw [List.foldl_cons, Place.walkFrom_eq_foldl_children]
    cases hp : visit t source (.ok s) p with
    | error fault =>
      rw [Place.offer_cons_of_error hp, List.map_cons, List.foldlM_cons, hp,
        if_neg (by simp [enters]), List.foldl_fixed' fun q => walkFrom_error fault q.above q.node]
      rfl
    | ok s' =>
      rw [Place.offer_cons_of_ok hp, List.map_cons, List.foldlM_cons, hp]
      refine (ih s').trans ?_
      rw [Place.remaining, Place.push_eq]
      split
      · rw [List.foldl_append]
      · rfl

/-- A plan is made by handling what is offered, in this order. -/
theorem ofTree_eq_foldlM (t : Targets) (source : Bytes) (tree : Node) :
    ofTree t source tree =
      (((offers t source tree).map (·.1)).foldlM (fun s p => visit t source (.ok s) p) {}).map
        (·.plan) := by
  rw [offers, Place.offered, foldlM_offer]
  rfl

/-- Some place that is handled replaces an address. -/
def Replaced (t : Targets) (source : Bytes) (tree : Node) (a : Address) : Prop :=
  Place.Marked Progress.replaced (offers t source tree) a

/-- A tree is gone through from a stack. Without a consumer every place comes once, in document
order; with one, a place comes if its ancestors were entered when they had been handled. In a plan
these are the places below nothing that a handler replaced. -/
theorem walk_offers_unreplaced (t : Targets) (source : Bytes) (tree : Node) :
    (Place.unrolled tree = Place.preorder tree ∧
      (Place.preorder tree).map (·.node) = tree.preorder ∧ (Place.preorder tree).Nodup ∧
      ∀ p, p ∈ Place.preorder tree ↔ Place.Of tree p) ∧
    (∀ (σ ε : Type) (handle : σ → Place → Except ε σ) (enters : σ → Place → Bool) (s : σ),
      let entries := Place.offered handle enters s tree;
      (entries.map (·.1)).Sublist (Place.preorder tree) ∧
      ∀ p, Place.Of tree p → (p ∈ entries.map (·.1) ↔
        (∀ q, Place.Of tree q → q.address <:+ p.address → q ≠ p → Place.Entered enters entries q) ∧
        ¬ Place.Stopped entries p)) ∧
    (let entries := offers t source tree;
      ofTree t source tree =
        ((entries.map (·.1)).foldlM (fun s p => visit t source (.ok s) p) {}).map (·.plan) ∧
      (entries.map (·.1)).Sublist (Place.preorder tree) ∧
      ∀ p, Place.Of tree p → (p ∈ entries.map (·.1) ↔
        (∀ q, Place.Of tree q → q.address <:+ p.address → q ≠ p →
          ¬ Replaced t source tree q.address) ∧
        ¬ Place.Stopped entries p)) := by
  refine ⟨⟨Place.unrolled_eq_preorder tree, Place.preorder_nodes tree, Place.nodup_preorder tree,
    fun _ => Place.mem_preorder⟩, fun σ ε handle enters s => ?_, ?_⟩
  · exact ⟨Place.offered_sublist handle enters s tree, fun p hp => Place.mem_offered_iff hp⟩
  · refine ⟨ofTree_eq_foldlM t source tree, Place.offered_sublist .., fun p hp => ?_⟩
    exact Place.mem_offered_iff_unmarked (marksBelow_visit t source) hp

end Plan

end Deadwood
