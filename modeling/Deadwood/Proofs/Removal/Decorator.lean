import Deadwood.Proofs.Removal.Nesting

/-!
Decorators of a removed method. One that the grammar puts into the method goes with it. One that
stands before it as a sibling stays as a whole, since of the siblings before a node its range takes
comments only (`decorators_stay`); it then decorates the member that comes next.
-/
namespace Deadwood

namespace Place

variable {tree : Node} {p q : Place}

/-- The run of decorators and comments directly before a place, nearest first. -/
def adornment (p : Place) : List Place :=
  p.preceding.takeWhile fun q => q.node.type == "decorator" || q.node.type == "comment"

/-- The decorators of a place that stand before it. -/
def decorators (p : Place) : List Place :=
  p.adornment.filter fun q => q.node.isNamed && q.node.type == "decorator"

theorem mem_preceding_of_mem_decorators (h : q ∈ p.decorators) : q ∈ p.preceding :=
  (List.takeWhile_prefix _).subset (List.mem_of_mem_filter h)

theorem of_mem_decorators (h : q ∈ p.decorators) :
    q.node.isNamed = true ∧ q.node.type = "decorator" := by
  simpa using (List.mem_filter.1 h).2

/-- A place and a sibling before it are children of one place. -/
theorem Of.exists_siblings (hp : Of tree p) (hq : q ∈ p.preceding) :
    ∃ r i k m n, Of tree r ∧ i < k ∧ r.node.children[i]? = some m ∧
      r.node.children[k]? = some n ∧ q = r.childAt i m ∧ p = r.childAt k n := by
  cases hp with
  | top => cases hq
  | @child r k n hr hk =>
    have hpreceding : (r.childAt k n).preceding = (r.children.take k).reverse := rfl
    rw [hpreceding, List.mem_reverse, List.mem_iff_getElem?] at hq
    obtain ⟨i, hi⟩ := hq
    rw [List.getElem?_take] at hi
    split at hi
    · next hik =>
      rw [children, List.getElem?_mapIdx, Option.map_eq_some_iff] at hi
      obtain ⟨m, hm, rfl⟩ := hi
      exact ⟨r, i, k, m, n, hr, hik, hm, hk, rfl, rfl⟩
    · cases hi

theorem isListed_of_class_body (h : p.parentType? = some "class_body") : p.isListed = true := by
  simp [isListed, h]

end Place

namespace Range

variable {source : Bytes} {tree : Node} {p q : Place}

/-- Of the siblings before a node only comments are in its range. -/
theorem stop_le_start_of_preceding (h : WellFormed source tree) (hp : Place.Of tree p)
    (hlisted : p.isListed = true) (hq : q ∈ p.preceding) (hne : q.node.start < q.node.stop)
    (htype : q.node.type ≠ "comment") (withSemicolon : Bool) :
    q.node.stop ≤ (ofRemoval source p withSemicolon).start := by
  have hcovers := covers h hp hlisted withSemicolon
  obtain ⟨r, i, k, m, n, hr, hik, hi, hk, rfl, rfl⟩ := hp.exists_siblings hq
  have hnot : ∀ s, (r.childAt k n).parent? = some s → ¬ (r.childAt i m).address <:+ s.address := by
    rintro s hs
    obtain rfl : r = s := Option.some.inj hs
    exact Address.not_cons_suffix i r.address
  rcases apart_or_below h (hr.child hk) hlisted (hr.child hi) hne hnot withSemicolon with
    hout | hout | ⟨s, hs, halong, hbelow, -⟩
  · exact hout
  · have hbefore := (hr.child hi).stop_le_start (hr.child hk) h.isLaidOut
      (.of_children hik List.suffix_rfl List.suffix_rfl)
    have hnode := (hr.child hk).start_le_stop h.isLaidOut
    omega
  · -- What goes along is a sibling as well, so it is the one in question or none.
    exfalso
    rcases halong with rfl | ⟨hparent, hcomment⟩ | ⟨-, hnext, -⟩
    · have hki : k = i := Address.eq_of_cons_suffix hbelow List.suffix_rfl
      omega
    · obtain ⟨-, j, hj, -⟩ := Place.of_parent hs hparent
      rw [hj, Place.address_childAt] at hbelow
      obtain rfl := Address.eq_of_cons_suffix hbelow List.suffix_rfl
      obtain rfl := hs.eq_of_address (hr.child hi) (hj ▸ rfl)
      exact htype hcomment
    · obtain ⟨m', -, rfl⟩ := next?_childAt.1 hnext
      have hki : k + 1 = i := Address.eq_of_cons_suffix hbelow List.suffix_rfl
      omega

end Range

namespace Plan

section Decorator

variable {t : Targets} {source : Bytes} {tree : Node} {p q : Place} {c : Change}

theorem start_lt_of_mem_decorators (hw : WellFormed source tree) (hg : Grammatical tree)
    (hp : Place.Of tree p) (hq : q ∈ p.decorators) : q.node.start < q.node.stop := by
  obtain ⟨r, i, -, m, -, hr, -, hi, -, rfl, -⟩ :=
    hp.exists_siblings (Place.mem_preceding_of_mem_decorators hq)
  have hof := hr.child hi
  refine lt_of_le_of_ne (hof.start_le_stop hw.isLaidOut) fun hempty => ?_
  have habove := (hg.solid _ (Place.mem_preorder.2 hof) hempty).2 (Place.of_mem_decorators hq).1
  cases habove

/-- What a place that the walk comes to contributes is recorded. -/
theorem edits_subset_of_reached {plan : Plan} (h : ofTree t source tree = .ok plan)
    (hp : p ∈ reached t source tree) (hc : change t source p = .ok c) : c.edits ⊆ plan.edits := by
  obtain ⟨steps, rfl, -, hx⟩ := exists_step_of_reached h hp hc
  rw [Step.edits_run, List.nil_append]
  exact fun e he => List.mem_flatMap.2 ⟨_, hx, he⟩

/-- The range of an edit covers that of a node. -/
def Covers (e : Edit) (n : Node) : Prop := e.start ≤ n.start ∧ n.stop ≤ e.stop

instance (e : Edit) (n : Node) : Decidable (Covers e n) := inferInstanceAs (Decidable (_ ∧ _))

/-- The deletion that is recorded for a method covers all that is in the method, a decorator too, and
leaves every decorator before it as a whole. So it takes the decorators of the method exactly if
none stands before it. -/
theorem decorators_stay (t : Targets) (source : Bytes) (tree : Node) (plan : Plan)
    (hw : WellFormed source tree) (hg : Grammatical tree) (hplan : ofTree t source tree = .ok plan)
    (p : Place) (hp : p ∈ reached t source tree) (hk : p.node.kind = .method) (c : Change)
    (hchange : change t source p = .ok c) (hne : c.edits ≠ []) :
    ∃ e, c.edits = [e] ∧ e ∈ plan.edits ∧ e.isDeletion = true ∧
      (∀ q ∈ Place.preorder tree, p.address <:+ q.address → Covers e q.node) ∧
      (∀ q ∈ p.decorators, q.node.stop ≤ e.start) ∧
      ((∀ q ∈ p.decorators, Covers e q.node) ↔ p.decorators = []) := by
  have hof := of_tree_of_reached hplan hp
  have hform : c ≠ {} := by
    rintro rfl
    exact hne rfl
  obtain ⟨name, hclass, -, -, rfl⟩ := (form_of_change hchange).of_method hk hform
  have hlisted := Place.isListed_of_class_body hclass
  have hcovers := Range.covers hw hof hlisted true
  have hsolid : ∀ q ∈ p.decorators, q.node.start < q.node.stop := fun q hq =>
    start_lt_of_mem_decorators hw hg hof hq
  have hstay : ∀ q ∈ p.decorators, q.node.stop ≤ (deletion source p true).start := by
    intro q hq
    refine Range.stop_le_start_of_preceding hw hof hlisted
      (Place.mem_preceding_of_mem_decorators hq) (hsolid q hq) ?_ true
    rw [(Place.of_mem_decorators hq).2]
    decide
  refine ⟨_, rfl, edits_subset_of_reached hplan hp hchange (List.mem_singleton_self _), rfl,
    fun q hq hbelow => ?_, hstay, fun h => ?_, fun h => ?_⟩
  · have hin := (Place.mem_preorder.1 hq).within hof hw.isLaidOut hbelow
    exact ⟨hcovers.1.trans hin.1, hin.2.trans hcovers.2⟩
  · refine List.eq_nil_iff_forall_not_mem.2 fun q hq => ?_
    have hin := (h q hq).1
    have hout := hstay q hq
    have hlt := hsolid q hq
    omega
  · rw [h]
    simp

end Decorator

namespace Decorated

open Deadwood.Sample (node token)

/-- A decorator before the method to remove, and a method after it. -/
def source : Bytes :=
  Utf8.encode "class A \x7b\n  @log\n  drop() \x7b\x7d\n  keep() \x7b\x7d\n\x7d\n"

def decorator : Node :=
  node "decorator" (some "decorator") 12 16 [token "@" 12 13, node "identifier" none 13 16 []]

def method (start : Nat) : Node :=
  node "method_definition" none start (start + 9) [
    node "property_identifier" (some "name") start (start + 4) [],
    node "formal_parameters" (some "parameters") (start + 4) (start + 6)
      [token "(" (start + 4) (start + 5), token ")" (start + 5) (start + 6)],
    node "statement_block" (some "body") (start + 7) (start + 9)
      [token "\x7b" (start + 7) (start + 8), token "\x7d" (start + 8) (start + 9)]]

def body : Node :=
  node "class_body" (some "body") 8 42
    [token "\x7b" 8 9, decorator, method 19, method 31, token "\x7d" 41 42]

def declaration : Node :=
  node "class_declaration" none 0 42
    [token "class" 0 5, node "type_identifier" (some "name") 6 7 [], body]

def tree : Node := node "program" none 0 43 [declaration]

def targets : Targets := [("drop", .method)]

def place : Place := (((Place.root tree).childAt 0 declaration).childAt 2 body).childAt 2 (method 19)

def edit : Edit := ⟨17, 29, []⟩

theorem wellFormed : WellFormed source tree := by decide +kernel

theorem grammatical : Grammatical tree := by decide +kernel

theorem ofTree_eq : ofTree targets source tree = .ok ⟨[edit], 1, ["drop"]⟩ := by decide +kernel

theorem of_tree : Place.Of tree place := ((Place.Of.top.child rfl).child rfl).child rfl

theorem mem_reached : place ∈ reached targets source tree := by
  have haddress : [2, 2, 0] ∈ (reached targets source tree).map Place.address := by decide +kernel
  obtain ⟨q, hq, heq⟩ := List.mem_map.1 haddress
  rwa [(of_tree_of_reached ofTree_eq hq).eq_of_address of_tree heq] at hq

theorem decorators_eq : place.decorators.map (·.node.start) = [12] := by decide +kernel

end Decorated

/-- The one decorator stands before the method, so it stays. -/
theorem decorators_stay_sample : ∃ e, (changeMethod Decorated.targets Decorated.source
      Decorated.place).edits = [e] ∧
    (∀ q ∈ Decorated.place.decorators, q.node.stop ≤ e.start) ∧
    ¬ ∀ q ∈ Decorated.place.decorators, Covers e q.node := by
  obtain ⟨e, hedits, -, -, -, hstay, hiff⟩ := decorators_stay Decorated.targets Decorated.source
    Decorated.tree _ Decorated.wellFormed Decorated.grammatical Decorated.ofTree_eq Decorated.place
    Decorated.mem_reached rfl _ rfl (by decide +kernel)
  refine ⟨e, hedits, hstay, fun h => ?_⟩
  have hnil := Decorated.decorators_eq
  rw [hiff.1 h] at hnil
  cases hnil

/-- The decorator of the removed method is left to the next one. -/
theorem decorator_moves_on :
    WellFormed Decorated.source Decorated.tree ∧
    ofTree Decorated.targets Decorated.source Decorated.tree =
      .ok ⟨[Decorated.edit], 1, ["drop"]⟩ ∧
    (∃ q ∈ Decorated.place.decorators, ¬ Covers Decorated.edit q.node) ∧
    Edit.apply Decorated.source [Decorated.edit] =
      .ok (Utf8.encode "class A \x7b\n  @log\n  keep() \x7b\x7d\n\x7d\n") :=
  ⟨Decorated.wellFormed, Decorated.ofTree_eq, by decide +kernel, by cbv⟩

end Plan

end Deadwood
