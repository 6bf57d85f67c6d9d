import Deadwood.Analysis.Complexity
import Deadwood.Proofs.Syntax.Pruned
import Mathlib.Algebra.GroupWithZero.Nat
import Mathlib.Data.List.Nodup
import Mathlib.Data.Option.Basic

/-!
Who scores a decision. A decision counts for the nearest function around it if it lies in that
function's body, and for no other (`mem_points`), so the scores of all functions together count
each such decision once (`decisions_scored_once`).
-/
namespace Deadwood

namespace Place

/-- The first function on the way up. -/
def functionAbove? : List (Node × Nat) → Option Place
  | [] => none
  | (n, _) :: rest => if n.kind.isFunctionLike then some ⟨n, rest⟩ else functionAbove? rest

/-- The nearest function that a place lies in, the place itself apart. -/
def function? (p : Place) : Option Place := functionAbove? p.above

variable {tree : Node} {p f : Place} {above t : List (Node × Nat)}

theorem function_of_functionAbove? (hp : Of tree p) (h : functionAbove? p.above = some f) :
    Of tree f ∧ f.node.kind.isFunctionLike = true := by
  obtain ⟨m, above⟩ := p
  induction above generalizing m with
  | nil => cases h
  | cons a rest ih =>
    obtain ⟨n, i⟩ := a
    obtain ⟨hn, -⟩ := of_cons_iff.1 hp
    rw [functionAbove?] at h
    split at h
    · next hfunction =>
      rw [Option.some.injEq] at h
      exact h ▸ ⟨hn, hfunction⟩
    · exact ih n hn h

theorem length_above_of_functionAbove? (h : functionAbove? above = some f) :
    f.above.length < above.length := by
  induction above with
  | nil => cases h
  | cons a rest ih =>
    obtain ⟨n, i⟩ := a
    rw [functionAbove?] at h
    split at h
    · rw [Option.some.injEq] at h
      rw [← h]
      exact Nat.lt_succ_self _
    · exact Nat.lt_succ_of_lt (ih h)

/-- The nearest function is one that lies above all of these exactly if none of them is one. -/
theorem functionAbove?_append (h : functionAbove? above = some f) :
    functionAbove? (t ++ above) = some f ↔ ∀ a ∈ t, a.1.kind.isFunctionLike = false := by
  induction t with
  | nil => simp [h]
  | cons a t ih =>
    obtain ⟨n, i⟩ := a
    rw [List.cons_append, functionAbove?, List.forall_mem_cons]
    by_cases hfunction : n.kind.isFunctionLike = true
    · have hlength := length_above_of_functionAbove? h
      simp only [hfunction, if_true, Option.some.injEq, Bool.true_eq_false, false_and, iff_false]
      rintro rfl
      rw [List.length_append] at hlength
      omega
    · rw [if_neg hfunction, ih]
      simp [hfunction]

end Place

namespace Complexity

open Place (function? functionAbove?)

variable {tree : Node} {d f body : Place}

theorem isFunctionLike_of_isDecision {n : Node} (h : isDecision n = true) :
    n.kind.isFunctionLike = false := by
  unfold isDecision at h
  cases hk : n.kind <;> simp_all [NodeKind.isFunctionLike]

/-- A body that is a function has no decision of its own. -/
theorem ofBody_eq (body : Node) :
    ofBody body = 1 + (body.preorderWhile entersBody).countP isDecision := by
  unfold ofBody
  split
  · rfl
  · next henters =>
    have hself : isDecision body = false := by
      refine Bool.eq_false_iff.2 fun hdecision => henters ?_
      rw [entersBody, isFunctionLike_of_isDecision hdecision]
      rfl
    obtain ⟨l, cs⟩ := body
    rw [Node.preorderWhile, if_neg henters, List.countP_singleton, hself]
    rfl

/-- The decisions that a body's score counts. -/
def points (body : Place) : List Place :=
  (Place.preorderWhileFrom entersBody body.above body.node).filter (isDecision ·.node)

theorem points_nodes (body : Place) : (points body).map (·.node) =
    (body.node.preorderWhile entersBody).filter isDecision := by
  rw [← Place.preorderWhileFrom_nodes entersBody body.above, List.filter_map]
  rfl

theorem ofBody_eq_length (body : Place) : ofBody body.node = 1 + (points body).length := by
  rw [ofBody_eq, List.countP_eq_length_filter, ← points_nodes, List.length_map]

theorem nodup_points (body : Place) : (points body).Nodup :=
  (Place.nodup_preorderWhileFrom entersBody body.above body.node).filter _

/-- The body of a place that is a function. -/
def body? (f : Place) : Option Place :=
  if f.node.kind.isFunctionLike then f.child? "body" else none

theorem body?_eq_some : body? f = some body ↔
    f.node.kind.isFunctionLike = true ∧ f.child? "body" = some body := by
  unfold body?
  split <;> simp_all

theorem body?_node (f : Place) : (body? f).map (·.node) =
    if f.node.kind.isFunctionLike then f.node.child? "body" else none := by
  unfold body?
  split
  · exact f.child?_node "body"
  · rfl

/-- A decision counts for a function if that is the nearest around it and it lies in the body. -/
theorem mem_points (hf : Place.Of tree f) (hbody : body? f = some body) (hd : Place.Of tree d) :
    d ∈ points body ↔
      isDecision d.node = true ∧ d.function? = some f ∧ body.address <:+ d.address := by
  obtain ⟨hfunction, hchild⟩ := body?_eq_some.1 hbody
  obtain ⟨i, n, hi, rfl⟩ := Place.mem_children.1 (Place.mem_children_of_child? hchild)
  have hnearest : functionAbove? ((f.node, i) :: f.above) = some f := by
    rw [functionAbove?, if_pos hfunction]
  have hbelow : d ∈ Place.preorderFrom ((f.node, i) :: f.above) n ↔
      (f.childAt i n).address <:+ d.address := (hf.child hi).mem_preorderFrom_iff hd
  rw [points, List.mem_filter, Place.mem_preorderWhileFrom, and_comm]
  refine and_congr_right fun _ => (and_comm.trans ?_)
  rw [Place.childAt] at hbelow ⊢
  rw [hbelow]
  refine and_congr_left fun hsuffix => ?_
  -- The ancestors as far as the body are those between the function and the decision.
  obtain ⟨m, above⟩ := d
  obtain ⟨t, rfl⟩ : (f.node, i) :: f.above <:+ above :=
    Place.above_suffix_of_mem_preorderFrom (hbelow.2 hsuffix)
  rw [Place.ancestorsBelow_append, Place.function?, Place.functionAbove?_append hnearest]
  simp [entersBody]

/-- The functions of a tree that have a body, with it, in document order. -/
def bodies (tree : Node) : List (Place × Place) :=
  (Place.preorder tree).filterMap fun f => (body? f).map (f, ·)

theorem mem_bodies : (f, body) ∈ bodies tree ↔ Place.Of tree f ∧ body? f = some body := by
  rw [bodies, List.mem_filterMap]
  constructor
  · rintro ⟨g, hg, h⟩
    obtain ⟨b, hb, heq⟩ := Option.map_eq_some_iff.1 h
    cases heq
    exact ⟨Place.mem_preorder.1 hg, hb⟩
  · rintro ⟨hf, hbody⟩
    exact ⟨f, Place.mem_preorder.2 hf, by rw [hbody]; rfl⟩

theorem pairwise_bodies (tree : Node) :
    (bodies tree).Pairwise fun a b => a.1 ≠ b.1 := by
  refine List.Pairwise.filterMap _ (fun a b hab x hx y hy => ?_)
    (Place.nodup_preorder tree)
  obtain ⟨_, -, rfl⟩ := Option.map_eq_some_iff.1 hx
  obtain ⟨_, -, rfl⟩ := Option.map_eq_some_iff.1 hy
  exact hab

/-- A decision that lies in the body of the nearest function around it. -/
def isScored (d : Place) : Bool :=
  isDecision d.node && (d.function?.bind body?).any (·.address.isSuffixOf d.address)

theorem isScored_iff (hd : Place.Of tree d) :
    isScored d = true ↔ ∃ fb ∈ bodies tree, d ∈ points fb.2 := by
  rw [isScored, Bool.and_eq_true, Option.any_eq_true]
  constructor
  · rintro ⟨hdecision, body, hbody, hsuffix⟩
    obtain ⟨f, hf, hbody⟩ := Option.bind_eq_some_iff.1 hbody
    have hof := (Place.function_of_functionAbove? hd hf).1
    exact ⟨(f, body), mem_bodies.2 ⟨hof, hbody⟩,
      (mem_points hof hbody hd).2 ⟨hdecision, hf, List.isSuffixOf_iff_suffix.1 hsuffix⟩⟩
  · rintro ⟨⟨f, body⟩, hfb, hpoint⟩
    obtain ⟨hf, hbody⟩ := mem_bodies.1 hfb
    obtain ⟨hdecision, hnearest, hsuffix⟩ := (mem_points hf hbody hd).1 hpoint
    exact ⟨hdecision, body, by rw [hnearest]; exact hbody,
      List.isSuffixOf_iff_suffix.2 hsuffix⟩

theorem of_mem_points (hfb : (f, body) ∈ bodies tree) (hd : d ∈ points body) : Place.Of tree d := by
  obtain ⟨hf, hbody⟩ := mem_bodies.1 hfb
  have hof : Place.Of tree body :=
    hf.of_mem_children (Place.mem_children_of_child? (body?_eq_some.1 hbody).2)
  exact Place.of_mem_preorderFrom hof (Place.mem_preorderWhileFrom.1 (List.mem_filter.1 hd).1).1

theorem nodup_points_bodies (tree : Node) :
    ((bodies tree).flatMap fun fb => points fb.2).Nodup := by
  refine List.nodup_flatMap.2 ⟨fun fb _ => nodup_points fb.2, ?_⟩
  refine (pairwise_bodies tree).imp_of_mem fun {a b} ha hb hab d hd hd' => hab ?_
  have hof := of_mem_points ha hd
  obtain ⟨hf, hbody⟩ := mem_bodies.1 ha
  obtain ⟨hg, hbody'⟩ := mem_bodies.1 hb
  have hnearest := ((mem_points hf hbody hof).1 hd).2.1
  rw [((mem_points hg hbody' hof).1 hd').2.1, Option.some.injEq] at hnearest
  exact hnearest.symm

/-- What all bodies count is what is counted somewhere, each decision once. -/
theorem points_bodies_perm (tree : Node) : ((bodies tree).flatMap fun fb => points fb.2).Perm
    ((Place.preorder tree).filter isScored) := by
  rw [List.perm_ext_iff_of_nodup (nodup_points_bodies tree)
    ((Place.nodup_preorder tree).filter _)]
  intro d
  rw [List.mem_flatMap, List.mem_filter, Place.mem_preorder]
  constructor
  · rintro ⟨fb, hfb, hd⟩
    have hof := of_mem_points hfb hd
    exact ⟨hof, (isScored_iff hof).2 ⟨fb, hfb, hd⟩⟩
  · rintro ⟨hof, hscored⟩
    exact (isScored_iff hof).1 hscored

theorem report?_eq (limit : Int) (source : Bytes) (file : String) (f : Place) :
    report? limit source file f =
      ((body? f).filter fun body => limit < (ofBody body.node : Int)).map fun body =>
        { name := functionName source f, file, line := f.node.line source
          complexity := ofBody body.node } := by
  have hbody := body?_node f
  unfold report?
  by_cases hfunction : f.node.kind.isFunctionLike = true
  · rw [if_pos hfunction] at hbody
    rw [← hbody, guard, if_pos hfunction]
    cases body? f with
    | none => rfl
    | some body =>
      rw [Option.filter_some]
      by_cases hlimit : limit < (ofBody body.node : Int)
      · simp [guard, hlimit]
      · simp [guard, hlimit, Option.failure_eq_none]
  · rw [if_neg hfunction, Option.map_eq_none_iff] at hbody
    rw [hbody, guard, if_neg hfunction]
    rfl

/-- The reported scores are those of the bodies that exceed the limit. -/
theorem complexity_reports (limit : Int) (source : Bytes) (file : String) (tree : Node) :
    (reports limit source file tree).map (·.complexity) =
      ((bodies tree).map fun fb => ofBody fb.2.node).filter fun c : Nat => limit < (c : Int) := by
  rw [reports, bodies, List.map_filterMap, List.map_filterMap, List.filter_filterMap]
  refine List.filterMap_congr fun f _ => ?_
  rw [report?_eq]
  cases body? f with
  | none => rfl
  | some body =>
    rw [Option.filter_some]
    by_cases hlimit : limit < (ofBody body.node : Int) <;> simp [hlimit, Option.filter_some]

/-- A body's score is one more than the decisions of which its function is the nearest around them;
over all bodies every decision in its function's body is counted once. -/
theorem decisions_scored_once (tree : Node) :
    (∀ f ∈ Place.preorder tree, ∀ body, body? f = some body →
      ofBody body.node = 1 + (points body).length ∧
      (points body).map (·.node) = (body.node.preorderWhile entersBody).filter isDecision ∧
      ∀ d ∈ Place.preorder tree, isDecision d.node = true →
        (d ∈ points body ↔ d.function? = some f ∧ body.address <:+ d.address)) ∧
    ((bodies tree).map fun fb => ofBody fb.2.node - 1).sum =
      (Place.preorder tree).countP isScored ∧
    ((bodies tree).flatMap fun fb => points fb.2).Nodup ∧
    ∀ limit source file, (reports limit source file tree).map (·.complexity) =
      ((bodies tree).map fun fb => ofBody fb.2.node).filter fun c : Nat => limit < (c : Int) := by
  refine ⟨fun f hf body hbody =>
      ⟨ofBody_eq_length body, points_nodes body, fun d hd hdecision => ?_⟩, ?_,
    nodup_points_bodies tree, fun limit source file => complexity_reports limit source file tree⟩
  · rw [mem_points (Place.mem_preorder.1 hf) hbody (Place.mem_preorder.1 hd)]
    exact and_iff_right hdecision
  · have hlength := (points_bodies_perm tree).length_eq
    rw [List.length_flatMap] at hlength
    rw [List.countP_eq_length_filter, ← hlength]
    refine congrArg List.sum (List.map_congr_left fun fb _ => ?_)
    rw [ofBody_eq_length, Nat.add_sub_cancel_left]

namespace Nested

def node (type : String) (field : Option String) (children : List Node) : Node :=
  .mk ⟨type, field, true, false, 0, 0⟩ children

def conjunction : Node :=
  node "binary_expression" (some "body") [node "&&" (some "operator") []]

/-- The function `() => b && c`, its names left out. -/
def short : Node := node "arrow_function" none [conjunction]

def block : Node := node "statement_block" (some "body") [node "if_statement" none [short]]

/-- The function `() => { if (a) () => b && c }`, its names left out. -/
def long : Node := node "arrow_function" none [block]

def program : Node := node "program" none [long]

def outer : Place := (Place.root program).childAt 0 long

def outerBody : Place := outer.childAt 0 block

def inner : Place := (outerBody.childAt 0 (node "if_statement" none [short])).childAt 0 short

def innerBody : Place := inner.childAt 0 conjunction

theorem of_outer : Place.Of program outer := Place.Of.top.child rfl

theorem of_inner : Place.Of program inner := ((of_outer.child rfl).child rfl).child rfl

end Nested

/-- A function within another has a decision for its body, which counts for it alone. -/
theorem decisions_scored_once_sample :
    Nested.innerBody ∈ points Nested.innerBody ∧ Nested.innerBody ∉ points Nested.outerBody ∧
    (Place.preorder Nested.program).countP isScored = 2 := by
  obtain ⟨hscores, hsum, -, -⟩ := decisions_scored_once Nested.program
  have hdecision : Nested.innerBody ∈ Place.preorder Nested.program :=
    Place.mem_preorder.2 (Nested.of_inner.child rfl)
  have hinner := (hscores Nested.inner (Place.mem_preorder.2 Nested.of_inner)
    Nested.innerBody rfl).2.2 Nested.innerBody hdecision rfl
  have houter := (hscores Nested.outer (Place.mem_preorder.2 Nested.of_outer)
    Nested.outerBody rfl).2.2 Nested.innerBody hdecision rfl
  refine ⟨hinner.2 ⟨rfl, List.suffix_rfl⟩, fun hpoint => ?_, hsum ▸ rfl⟩
  obtain ⟨hnearest, -⟩ := houter.1 hpoint
  exact absurd (congrArg (Option.map Place.address) hnearest) (by decide +kernel)

end Complexity

end Deadwood
