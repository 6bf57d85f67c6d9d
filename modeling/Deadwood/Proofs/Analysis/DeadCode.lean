import Deadwood.Analysis.DeadCode
import Deadwood.Proofs.Syntax.Pruned
import Mathlib.Data.List.Basic
import Mathlib.Data.Option.Basic

/-!
What is reported as unreachable. A block is reported exactly if a statement that needs control flow
comes after a return or a throw in it, and then by the first such statement after the first of these
(`unreachable?_eq_some_iff`, `reports_first_unreachable`).
-/
namespace Deadwood

namespace DeadCode

variable {n t s block : Node} {ks rest : List Node} {r : DeadReason}

/-- Control flow does not get past a return or a throw. -/
def endsFlow (n : Node) : Bool := n.kind = .returnStatement || n.kind = .throwStatement

/-- What is never run unless control flow comes to it: all but comments, empty statements and
function declarations. -/
def needsFlow (n : Node) : Bool :=
  n.kind ≠ .comment && n.type ≠ "empty_statement" && n.kind ≠ .functionDeclaration

/-- Some statement that needs control flow comes after one that ends it. -/
def HasUnreachable (ks : List Node) : Prop :=
  ∃ (i j : Nat) (t s : Node), i < j ∧ ks[i]? = some t ∧ ks[j]? = some s ∧
    endsFlow t = true ∧ needsFlow s = true

/-- The first statement that ends control flow, and the first after it that needs it. -/
def FirstUnreachable (ks : List Node) (t s : Node) : Prop :=
  ∃ before between after, ks = before ++ t :: (between ++ s :: after) ∧
    (∀ n ∈ before, endsFlow n = false) ∧ endsFlow t = true ∧
    (∀ n ∈ between, needsFlow n = false) ∧ needsFlow s = true

theorem FirstUnreachable.hasUnreachable (h : FirstUnreachable ks t s) : HasUnreachable ks := by
  obtain ⟨before, between, after, rfl, -, ht, -, hs⟩ := h
  refine ⟨before.length, before.length + (between.length + 1), t, s, by omega, ?_, ?_, ht, hs⟩
  · rw [List.getElem?_append_right le_rfl, Nat.sub_self, List.getElem?_cons_zero]
  · rw [List.getElem?_append_right (by omega), Nat.add_sub_cancel_left, List.getElem?_cons_succ,
      List.getElem?_append_right le_rfl, Nat.sub_self, List.getElem?_cons_zero]

theorem exists_first {p : Node → Bool} (hn : n ∈ ks) (hp : p n = true) :
    ∃ before m after, ks = before ++ m :: after ∧ (∀ k ∈ before, p k = false) ∧ p m = true := by
  obtain ⟨m, hm⟩ := Option.isSome_iff_exists.1 (List.find?_isSome.2 ⟨n, hn, hp⟩)
  obtain ⟨hpm, before, after, hks, hbefore⟩ := List.find?_eq_some_iff_append.1 hm
  exact ⟨before, m, after, hks, fun k hk => by simpa using hbefore k hk, hpm⟩

theorem exists_firstUnreachable (h : HasUnreachable ks) : ∃ t s, FirstUnreachable ks t s := by
  obtain ⟨i, j, t, s, hij, ht, hs, hends, hneeds⟩ := h
  obtain ⟨before, first, rest, rfl, hbefore, hfirst⟩ :=
    exists_first (List.mem_of_getElem? ht) hends
  -- The first statement that ends control flow comes no later than this one.
  have hi : before.length ≤ i := by
    refine Nat.le_of_not_lt fun hi => ?_
    rw [List.getElem?_append_left hi] at ht
    rw [hbefore t (List.mem_of_getElem? ht)] at hends
    cases hends
  have hrest : s ∈ rest := by
    rw [List.getElem?_append_right (by omega)] at hs
    obtain ⟨k, hk⟩ : ∃ k, j - before.length = k + 1 := ⟨j - before.length - 1, by omega⟩
    rw [hk, List.getElem?_cons_succ] at hs
    exact List.mem_of_getElem? hs
  obtain ⟨between, s', after, rfl, hbetween, hs'⟩ := exists_first hrest hneeds
  exact ⟨first, s', before, between, after, rfl, hbefore, hfirst, hbetween, hs'⟩

/-! ## The scan of one block -/

theorem reason?_eq_none_iff : reason? n = none ↔ endsFlow n = false := by
  unfold reason? endsFlow
  cases n.kind <;> simp

theorem endsFlow_of_reason? (h : reason? n = some r) : endsFlow n = true := by
  by_contra hends
  rw [reason?_eq_none_iff.2 (eq_false_of_ne_true hends)] at h
  cases h

theorem exists_reason? (h : endsFlow n = true) : ∃ r, reason? n = some r := by
  refine Option.ne_none_iff_exists'.1 fun hnone => ?_
  rw [reason?_eq_none_iff, h] at hnone
  cases hnone

theorem reason?_of_isFiller (h : isFiller n = true) : reason? n = none := by
  rw [isFiller, Bool.or_eq_true, decide_eq_true_eq, decide_eq_true_eq] at h
  rw [reason?]
  rcases h with h | h
  · rw [h]
  · rw [Node.kind, h]
    rfl

theorem needsFlow_eq (n : Node) : needsFlow n = (! isFiller n && ! isReachableLater n) := by
  simp [needsFlow, isFiller, isReachableLater]

theorem terminator?_eq_some : terminator? ks = some (r, rest) ↔
    ∃ before t, ks = before ++ t :: rest ∧ (∀ n ∈ before, endsFlow n = false) ∧
      reason? t = some r := by
  induction ks with
  | nil => simp [terminator?]
  | cons n ks ih =>
    rw [terminator?]
    cases hn : reason? n with
    | some r' =>
      constructor
      · rintro ⟨⟩
        exact ⟨[], n, rfl, nofun, hn⟩
      · rintro ⟨before, t, hks, hbefore, ht⟩
        cases before with
        | nil =>
          cases hks
          rw [hn, Option.some.injEq] at ht
          rw [ht]
        | cons m before =>
          cases hks
          rw [reason?_eq_none_iff.2 (hbefore n List.mem_cons_self)] at hn
          cases hn
    | none =>
      rw [ih]
      constructor
      · rintro ⟨before, t, rfl, hbefore, ht⟩
        exact ⟨n :: before, t, rfl,
          List.forall_mem_cons.2 ⟨reason?_eq_none_iff.1 hn, hbefore⟩, ht⟩
      · rintro ⟨before, t, hks, hbefore, ht⟩
        cases before with
        | nil =>
          cases hks
          rw [hn] at ht
          cases ht
        | cons m before =>
          cases hks
          exact ⟨before, t, rfl, (List.forall_mem_cons.1 hbefore).2, ht⟩

/-- Comments and empty statements can be left out before or after, since none ends control flow. -/
theorem terminator?_filter (ks : List Node) : terminator? (ks.filter (! isFiller ·)) =
    (terminator? ks).map fun (r, rest) => (r, rest.filter (! isFiller ·)) := by
  induction ks with
  | nil => rfl
  | cons n ks ih =>
    by_cases hfiller : isFiller n = true
    · rw [List.filter_cons_of_neg (by simp [hfiller]), ih, terminator?,
        reason?_of_isFiller hfiller]
    · rw [List.filter_cons_of_pos (by simp [hfiller]), terminator?, terminator?]
      cases reason? n with
      | none => exact ih
      | some r => rfl

theorem unreachable?_eq_bind (block : Node) :
    unreachable? block = (terminator? block.namedChildren).bind fun (r, rest) =>
      (rest.find? needsFlow).map (r, ·) := by
  have hneeds : needsFlow = fun n => ! isFiller n && ! isReachableLater n := funext needsFlow_eq
  rw [unreachable?, terminator?_filter, hneeds]
  cases terminator? block.namedChildren with
  | none => rfl
  | some found => simp [List.find?_filter]

theorem unreachable?_eq_some_iff : unreachable? block = some (r, s) ↔
    ∃ t, FirstUnreachable block.namedChildren t s ∧ reason? t = some r := by
  rw [unreachable?_eq_bind, Option.bind_eq_some_iff]
  constructor
  · rintro ⟨⟨r', rest⟩, hfound, hs⟩
    obtain ⟨s', hs, heq⟩ := Option.map_eq_some_iff.1 hs
    cases heq
    obtain ⟨before, t, hks, hbefore, ht⟩ := terminator?_eq_some.1 hfound
    obtain ⟨hneeds, between, after, rfl, hbetween⟩ := List.find?_eq_some_iff_append.1 hs
    exact ⟨t, ⟨before, between, after, hks, hbefore, endsFlow_of_reason? ht,
      fun n hn => by simpa using hbetween n hn, hneeds⟩, ht⟩
  · rintro ⟨t, ⟨before, between, after, hks, hbefore, -, hbetween, hneeds⟩, ht⟩
    exact ⟨(r, between ++ s :: after), terminator?_eq_some.2 ⟨before, t, hks, hbefore, ht⟩,
      Option.map_eq_some_iff.2 ⟨s, List.find?_eq_some_iff_append.2
        ⟨hneeds, between, after, rfl, fun n hn => by simp [hbetween n hn]⟩, rfl⟩⟩

theorem isSome_unreachable?_iff :
    (unreachable? block).isSome = true ↔ HasUnreachable block.namedChildren := by
  rw [Option.isSome_iff_exists]
  constructor
  · rintro ⟨⟨r, s⟩, hfound⟩
    obtain ⟨t, hfirst, -⟩ := unreachable?_eq_some_iff.1 hfound
    exact hfirst.hasUnreachable
  · intro h
    obtain ⟨t, s, hfirst⟩ := exists_firstUnreachable h
    have hends : endsFlow t = true := by
      obtain ⟨-, -, -, -, -, hends, -⟩ := hfirst
      exact hends
    obtain ⟨r, hr⟩ := exists_reason? hends
    exact ⟨(r, s), unreachable?_eq_some_iff.2 ⟨t, hfirst, hr⟩⟩

/-! ## The reports of a tree -/

/-- What is reported of a block: its first unreachable statement, and what cuts it off. -/
def Finds (source : Bytes) (file : String) (block : Node) (d : DeadCode) : Prop :=
  ∃ t s reason, FirstUnreachable block.namedChildren t s ∧ reason? t = some reason ∧
    d = { file, line := s.line source, reason, code := excerpt (s.text source) }

theorem report?_eq_some {source : Bytes} {file : String} {d : DeadCode} :
    report? source file block = some d ↔ block.kind = .statementBlock ∧
      Finds source file block d := by
  rw [report?, Option.bind_eq_bind, Option.bind_eq_some_iff]
  constructor
  · rintro ⟨_, hguard, hd⟩
    have hkind : block.kind = .statementBlock := (Option.guard_eq_some' _).1 hguard
    obtain ⟨⟨reason, s⟩, hfound, hd⟩ := Option.bind_eq_some_iff.1 hd
    obtain ⟨t, hfirst, ht⟩ := unreachable?_eq_some_iff.1 hfound
    cases hd
    exact ⟨hkind, t, s, reason, hfirst, ht, rfl⟩
  · rintro ⟨hkind, t, s, reason, hfirst, ht, rfl⟩
    exact ⟨(), (Option.guard_eq_some' _).2 hkind, Option.bind_eq_some_iff.2
      ⟨(reason, s), unreachable?_eq_some_iff.2 ⟨t, hfirst, ht⟩, rfl⟩⟩

theorem isSome_report?_iff {source : Bytes} {file : String} :
    (report? source file block).isSome = true ↔
      block.kind = .statementBlock ∧ HasUnreachable block.namedChildren := by
  rw [Option.isSome_iff_exists]
  constructor
  · rintro ⟨d, hd⟩
    obtain ⟨hkind, t, s, -, hfirst, -⟩ := report?_eq_some.1 hd
    exact ⟨hkind, hfirst.hasUnreachable⟩
  · rintro ⟨hkind, hunreachable⟩
    obtain ⟨⟨reason, s⟩, hfound⟩ :=
      Option.isSome_iff_exists.1 (isSome_unreachable?_iff.2 hunreachable)
    obtain ⟨t, hfirst, ht⟩ := unreachable?_eq_some_iff.1 hfound
    exact ⟨_, report?_eq_some.2 ⟨hkind, t, s, reason, hfirst, ht, rfl⟩⟩

theorem forall₂_filterMap {α β : Type} {f : α → Option β} {R : α → β → Prop}
    (h : ∀ a b, f a = some b → R a b) (as : List α) :
    List.Forall₂ R (as.filter fun a => (f a).isSome) (as.filterMap f) := by
  induction as with
  | nil => exact .nil
  | cons a as ih =>
    cases hf : f a with
    | none => simpa [hf] using ih
    | some b => simpa [hf] using ⟨h a b hf, ih⟩

/-- The reports are those of the blocks with an unreachable statement, one each and in document
order, and each is of the first such statement of its block. -/
theorem reports_first_unreachable (source : Bytes) (file : String) (tree : Node) :
    ∃ blocks : List Place, blocks.Sublist (Place.preorder tree) ∧ blocks.Nodup ∧
      (∀ p ∈ Place.preorder tree,
        p ∈ blocks ↔ p.node.kind = .statementBlock ∧ HasUnreachable p.node.namedChildren) ∧
      List.Forall₂ (fun p d => Finds source file p.node d) blocks (reports source file tree) := by
  refine ⟨(Place.preorder tree).filter fun p => (report? source file p.node).isSome,
    List.filter_sublist, (Place.nodup_preorder tree).filter _, fun p hp => ?_, ?_⟩
  · rw [List.mem_filter, isSome_report?_iff]
    exact and_iff_right hp
  · rw [reports, ← Place.preorder_nodes, List.filterMap_map]
    exact forall₂_filterMap (fun p d hd => (report?_eq_some.1 hd).2) _

end DeadCode

end Deadwood
