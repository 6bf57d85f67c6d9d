import Deadwood.Syntax.Node
import Mathlib.Data.List.Basic

/-!
Trees without the comments in their argument lists. All that is asked of a node by its label, by a
field or by the types of its named children is answered as before.
-/
namespace Deadwood.Node

/-- A comment as grammars give it: a leaf that hangs under no field. -/
def isRemark (n : Node) : Bool := n.type = "comment" && n.isLeaf && n.field.isNone

def isArgumentList (n : Node) : Bool := n.field == some "arguments"

mutual
/-- The tree without the comments in its argument lists. -/
def uncommented : Node → Node
  | .mk l cs => .mk l (uncommentedAll (Node.mk l cs).isArgumentList cs)

def uncommentedAll (inList : Bool) : List Node → List Node
  | [] => []
  | n :: rest =>
    if inList && n.isRemark then uncommentedAll inList rest
    else uncommented n :: uncommentedAll inList rest
end

variable {n : Node} {field : String}

theorem label_uncommented (n : Node) : n.uncommented.label = n.label := by
  cases n
  rw [uncommented]
  rfl

@[simp] theorem type_uncommented (n : Node) : n.uncommented.type = n.type :=
  congrArg Label.type (label_uncommented n)

@[simp] theorem field_uncommented (n : Node) : n.uncommented.field = n.field :=
  congrArg Label.field (label_uncommented n)

@[simp] theorem isNamed_uncommented (n : Node) : n.uncommented.isNamed = n.isNamed :=
  congrArg Label.named (label_uncommented n)

@[simp] theorem kind_uncommented (n : Node) : n.uncommented.kind = n.kind := by
  rw [kind, kind, type_uncommented]

@[simp] theorem text_uncommented (n : Node) (source : Bytes) :
    n.uncommented.text source = n.text source := by
  simp only [text, bytes, start, stop, label_uncommented]

@[simp] theorem line_uncommented (n : Node) (source : Bytes) :
    n.uncommented.line source = n.line source := by
  simp only [line, start, label_uncommented]

/-- A child that is no comment in an argument list. -/
def staysIn (parent c : Node) : Bool := ! (parent.isArgumentList && c.isRemark)

theorem isRemark_of_staysIn {parent c : Node} (h : parent.staysIn c = false) :
    c.isRemark = true := by
  simp only [staysIn, Bool.not_eq_false', Bool.and_eq_true] at h
  exact h.2

theorem children_uncommented (n : Node) :
    n.uncommented.children = (n.children.filter n.staysIn).map uncommented := by
  have hall : ∀ (inList : Bool) (ns : List Node), uncommentedAll inList ns =
      (ns.filter fun c => ! (inList && c.isRemark)).map uncommented := by
    intro inList ns
    induction ns with
    | nil => rfl
    | cons c rest ih =>
      rw [uncommentedAll, ih, List.filter_cons]
      cases inList && c.isRemark <;> rfl
  cases n
  rw [uncommented]
  exact hall _ _

theorem namedChildren_uncommented (n : Node) :
    n.uncommented.namedChildren = (n.namedChildren.filter n.staysIn).map uncommented := by
  rw [namedChildren, children_uncommented, List.filter_map, namedChildren, List.filter_filter,
    List.filter_filter]
  congr 1
  refine List.filter_congr fun c _ => ?_
  rw [Function.comp_apply, isNamed_uncommented, Bool.and_comm]

theorem kind_of_isRemark (h : n.isRemark = true) : n.kind = .comment := by
  simp only [isRemark, Bool.and_eq_true, decide_eq_true_eq] at h
  rw [kind, h.1.1]
  rfl

theorem type_of_isRemark (h : n.isRemark = true) : n.type = "comment" := by
  simp only [isRemark, Bool.and_eq_true, decide_eq_true_eq] at h
  exact h.1.1

theorem field_of_isRemark (h : n.isRemark = true) : n.field = none := by
  simp only [isRemark, Bool.and_eq_true, Option.isNone_iff_eq_none] at h
  exact h.2

theorem preorder_of_isRemark (h : n.isRemark = true) : n.preorder = [n] := by
  simp only [isRemark, Bool.and_eq_true] at h
  cases n with
  | mk l cs =>
    obtain rfl : cs = [] := by simpa [isLeaf, children] using h.1.2
    rfl

theorem isRemark_uncommented (n : Node) : n.uncommented.isRemark = n.isRemark := by
  rw [isRemark, isRemark, type_uncommented, field_uncommented, isLeaf, children_uncommented,
    List.isEmpty_map, isLeaf]
  cases hfield : n.field with
  | some field => rw [Option.isNone_some, Bool.and_false, Bool.and_false]
  | none =>
    have hstays : n.staysIn = fun _ => true := by
      funext c
      rw [staysIn, isArgumentList, hfield]
      rfl
    rw [hstays, List.filter_true]

mutual
theorem uncommented_uncommented (n : Node) : n.uncommented.uncommented = n.uncommented := by
  cases n with
  | mk l cs =>
    rw [uncommented, uncommented]
    exact congrArg _ (uncommentedAll_uncommentedAll _ cs)

theorem uncommentedAll_uncommentedAll (inList : Bool) (ns : List Node) :
    uncommentedAll inList (uncommentedAll inList ns) = uncommentedAll inList ns := by
  cases ns with
  | nil => rfl
  | cons n rest =>
    rw [uncommentedAll]
    split
    · exact uncommentedAll_uncommentedAll inList rest
    · next hn =>
      rw [uncommentedAll, isRemark_uncommented, if_neg hn, uncommented_uncommented n,
        uncommentedAll_uncommentedAll inList rest]
end

/-- No comment hangs under a field. -/
theorem child?_uncommented (n : Node) (field : String) :
    n.uncommented.child? field = (n.child? field).map uncommented := by
  rw [child?, children_uncommented, List.find?_map, List.find?_filter, child?]
  congr 2
  funext c
  rw [Function.comp_apply, field_uncommented]
  cases hstays : n.staysIn c with
  | true => simp only [true_and, Bool.decide_eq_true]
  | false => simp [field_of_isRemark (isRemark_of_staysIn hstays)]

theorem filter_uncommented {p : Node → Bool} (hp : ∀ c, p c.uncommented = p c)
    (hremark : ∀ c, c.isRemark = true → p c = false) (n : Node) :
    n.uncommented.namedChildren.filter p = (n.namedChildren.filter p).map uncommented := by
  rw [namedChildren_uncommented, List.filter_map, List.filter_filter]
  congr 1
  refine List.filter_congr fun c _ => ?_
  rw [Function.comp_apply, hp]
  cases hstays : n.staysIn c with
  | true => rw [Bool.and_true]
  | false => rw [hremark c (isRemark_of_staysIn hstays), Bool.false_and]

section Preorder

variable {α : Type} {f : Node → List α}

mutual
theorem flatMap_preorder_uncommented (hremark : ∀ c, c.isRemark = true → f c = []) {n : Node}
    (hf : ∀ c ∈ n.preorder, f c.uncommented = f c) :
    n.uncommented.preorder.flatMap f = n.preorder.flatMap f := by
  cases n with
  | mk l cs =>
    have hself := hf _ (mem_preorder_self _)
    rw [preorder, List.forall_mem_cons] at hf
    rw [uncommented] at hself ⊢
    rw [preorder, preorder, List.flatMap_cons, List.flatMap_cons, hself,
      flatMap_preorderAll_uncommented hremark _ hf.2]

/-- What is collected from nodes is collected without the comments among their arguments, if
comments have nothing to give and every other node gives the same. -/
theorem flatMap_preorderAll_uncommented (hremark : ∀ c, c.isRemark = true → f c = [])
    (inList : Bool) {ns : List Node} (hf : ∀ c ∈ preorderAll ns, f c.uncommented = f c) :
    (preorderAll (uncommentedAll inList ns)).flatMap f = (preorderAll ns).flatMap f := by
  cases ns with
  | nil => rfl
  | cons n rest =>
    rw [preorderAll, List.forall_mem_append] at hf
    have hrest := flatMap_preorderAll_uncommented hremark inList hf.2
    rw [uncommentedAll, preorderAll, List.flatMap_append]
    split
    · next hn =>
      rw [Bool.and_eq_true] at hn
      rw [hrest, preorder_of_isRemark hn.2, List.flatMap_singleton, hremark n hn.2,
        List.nil_append]
    · rw [preorderAll, List.flatMap_append, hrest, flatMap_preorder_uncommented hremark hf.1]
end

end Preorder

end Deadwood.Node
