import Deadwood.Proofs.Removal.Edit
import Deadwood.Removal.Range
import Mathlib.Data.List.Pairwise

/-!
What edits make of a part of the source. Where no edit reaches across an offset, the edits on either
side of it work on their own, so what they make of a whole is put together from what they make of
its parts (`Applicable.makes_append`, `Applicable.makes_patch`).
-/
namespace Deadwood.Edit

/-- Edits of a source that merge in any order. -/
structure Applicable (source : Bytes) (edits : List Edit) : Prop where
  compatible : edits.Pairwise Compatible
  start_lt : ∀ e ∈ edits, e.start < e.stop
  stop_le : ∀ e ∈ edits, e.stop ≤ source.length

def liesIn (r : Range) (e : Edit) : Bool := decide (r.start ≤ e.start ∧ e.stop ≤ r.stop)

/-- The edits that lie in a range put a text in its place. -/
def Makes (source : Bytes) (edits : List Edit) (r : Range) (text : Bytes) : Prop :=
  apply source (edits.filter (liesIn r)) =
    .ok (source.take r.start ++ text ++ source.drop r.stop)

variable {source text text' : Bytes} {a b e : Edit} {edits left right merged merged' : List Edit}
  {r : Range} {i j k : Nat}

theorem liesIn_iff : e.liesIn r = true ↔ r.start ≤ e.start ∧ e.stop ≤ r.stop := by
  simp [liesIn]

theorem Makes.unique (h : Makes source edits r text) (h' : Makes source edits r text') :
    text = text' := by
  unfold Makes at h h'
  rw [h, Except.ok.injEq, List.append_left_inj, List.append_right_inj] at h'
  exact h'

/-! ### Merging on both sides of an offset -/

/-- Compatible edits of one place are deletions. -/
theorem Compatible.eq_of_le (h : Compatible a b) (ha : a.start < a.stop) (hab : le a b = true)
    (hba : le b a = true) : a = b := by
  rw [le_iff] at hab hba
  have hstart : a.start = b.start := by omega
  have hstop : a.stop = b.stop := by omega
  rcases h with ⟨hdel, hdel'⟩ | h | h | ⟨-, -, -, h⟩ | ⟨-, -, -, h⟩
  · rw [isDeletion_iff] at hdel hdel'
    cases a
    cases b
    simp_all
  all_goals omega

theorem Applicable.filter (h : Applicable source edits) (holds : Edit → Bool) :
    Applicable source (edits.filter holds) where
  compatible := h.compatible.sublist List.filter_sublist
  start_lt e he := h.start_lt e (List.mem_of_mem_filter he)
  stop_le e he := h.stop_le e (List.mem_of_mem_filter he)

instance : Std.Symm Compatible := ⟨fun _ _ => Compatible.symm⟩

theorem Applicable.eq_of_le (h : Applicable source edits) (ha : a ∈ edits) (hb : b ∈ edits)
    (hab : le a b = true) (hba : le b a = true) : a = b := by
  by_cases heq : a = b
  · exact heq
  · exact (h.compatible.forall ha hb heq).eq_of_le (h.start_lt a ha) hab hba

/-- Edits on both sides of an offset are sorted side by side. -/
theorem Applicable.mergeSort_eq (h : Applicable source edits)
    (hcut : ∀ e ∈ edits, e.stop ≤ j ∨ j ≤ e.start) :
    edits.mergeSort le = (edits.filter (·.stop ≤ j)).mergeSort le ++
      (edits.filter fun e => ! decide (e.stop ≤ j)).mergeSort le := by
  have hperm : (edits.mergeSort le).Perm ((edits.filter (·.stop ≤ j)).mergeSort le ++
      (edits.filter fun e => ! decide (e.stop ≤ j)).mergeSort le) :=
    (List.mergeSort_perm edits le).trans ((List.filter_append_perm _ edits).symm.trans
      ((List.mergeSort_perm _ le).symm.append (List.mergeSort_perm _ le).symm))
  refine List.Perm.eq_of_pairwise ?_ (sorted_mergeSort edits) ?_ hperm
  · intro a b ha hb hab hba
    exact h.eq_of_le (List.mem_mergeSort.1 ha) (List.mem_mergeSort.1 (hperm.mem_iff.2 hb)) hab hba
  · refine List.pairwise_append.2 ⟨sorted_mergeSort _, sorted_mergeSort _, fun a ha b hb => ?_⟩
    obtain ⟨ha, hstop⟩ := List.mem_filter.1 (List.mem_mergeSort.1 ha)
    obtain ⟨hb, hstop'⟩ := List.mem_filter.1 (List.mem_mergeSort.1 hb)
    have hlt := h.start_lt a ha
    have hstart := hcut b hb
    simp only [decide_eq_true_eq, Bool.not_eq_true', decide_eq_false_iff_not] at hstop hstop'
    rw [le_iff]
    omega

theorem mergeAfter_append (ha : a.stop ≤ j) (hleft : ∀ e ∈ left, e.stop ≤ j) (hb : j ≤ b.start) :
    mergeAfter a (left ++ b :: right) = do
      let merged ← mergeAfter a left
      return merged ++ (← mergeAfter b right) := by
  induction left generalizing a with
  | nil =>
    have hlt : ¬ b.start < a.stop := by omega
    rw [List.nil_append, mergeAfter, mergeAfter, if_neg hlt]
    cases mergeAfter b right <;> rfl
  | cons e rest ih =>
    rw [List.forall_mem_cons] at hleft
    rw [List.cons_append, mergeAfter, mergeAfter]
    split
    · split
      · exact ih ha hleft.2
      · split
        · exact ih (max_le ha hleft.1) hleft.2
        · rfl
    · rw [ih hleft.1 hleft.2]
      cases mergeAfter e rest with
      | error c => rfl
      | ok merged => cases mergeAfter b right <;> rfl

/-- Edits on both sides of an offset are merged side by side. -/
theorem Applicable.merge_eq (h : Applicable source edits)
    (hcut : ∀ e ∈ edits, e.stop ≤ j ∨ j ≤ e.start)
    (hleft : merge (edits.filter (·.stop ≤ j)) = .ok merged)
    (hright : merge (edits.filter fun e => ! decide (e.stop ≤ j)) = .ok merged') :
    merge edits = .ok (merged ++ merged') := by
  have hsort := h.mergeSort_eq hcut
  have hbefore : ∀ e ∈ (edits.filter (·.stop ≤ j)).mergeSort le, e.stop ≤ j := fun e he => by
    simpa using (List.mem_filter.1 (List.mem_mergeSort.1 he)).2
  have hbehind : ∀ e ∈ (edits.filter fun e => ! decide (e.stop ≤ j)).mergeSort le, j ≤ e.start :=
    fun e he => by
      obtain ⟨he, hstop⟩ := List.mem_filter.1 (List.mem_mergeSort.1 he)
      exact (hcut e he).resolve_left (by simpa using hstop)
  unfold merge at hleft hright ⊢
  rw [hsort]
  generalize (edits.filter (·.stop ≤ j)).mergeSort le = before at hleft hbefore
  generalize (edits.filter fun e => ! decide (e.stop ≤ j)).mergeSort le = behind at hright hbehind
  cases before with
  | nil =>
    cases hleft
    exact hright
  | cons a before =>
    cases behind with
    | nil =>
      cases hright
      simpa using hleft
    | cons b behind =>
      dsimp only at hleft hright
      rw [List.forall_mem_cons] at hbefore hbehind
      dsimp only [List.cons_append]
      rw [mergeAfter_append hbefore.1 hbefore.2 hbehind.1, hleft, hright]
      rfl

/-! ### Ranges -/

theorem Applicable.exists_merge (h : Applicable source edits) :
    ∃ merged, merge edits = .ok merged :=
  exists_merge_of_compatible h.compatible h.start_lt

theorem Ordered.of_le_start (h : Ordered 0 j merged) (hij : i ≤ j)
    (hstart : ∀ e ∈ merged, i ≤ e.start) : Ordered i j merged := by
  cases merged with
  | nil => exact hij
  | cons e rest => exact ⟨hstart e List.mem_cons_self, h.2⟩

/-- What is merged of the edits in a range lies in the range. -/
theorem Applicable.exists_ordered (h : Applicable source edits) (hij : i ≤ j) :
    ∃ merged, merge (edits.filter (liesIn ⟨i, j⟩)) = .ok merged ∧ Ordered i j merged := by
  obtain ⟨merged, hmerged⟩ := (h.filter (liesIn ⟨i, j⟩)).exists_merge
  have hin : ∀ e ∈ edits.filter (liesIn ⟨i, j⟩), i ≤ e.start ∧ e.stop ≤ j := fun e he =>
    liesIn_iff.1 (List.mem_filter.1 he).2
  refine ⟨merged, hmerged, Ordered.of_le_start ?_ hij ?_⟩
  · exact ordered_merge (fun e he => ⟨((h.filter _).start_lt e he).le, (hin e he).2⟩) hmerged
  · exact forall_merge (fun a b ha _ _ _ => ha) (fun e he => (hin e he).1) hmerged

theorem Ordered.append (h : Ordered i j merged) (h' : Ordered j k merged') :
    Ordered i k (merged ++ merged') := by
  induction merged generalizing i with
  | nil => exact h'.mono h
  | cons e rest ih => exact ⟨h.1, h.2.1, ih h.2.2⟩

/-- Edits up to an offset and edits from there on. -/
theorem patch_append (source : Bytes) (h : Ordered i j merged) (h' : Ordered j k merged') :
    patch (source.take k) i (merged ++ merged') =
      patch (source.take j) i merged ++ patch (source.take k) j merged' := by
  induction merged generalizing i with
  | nil =>
    rw [List.nil_append, patch_eq_append h' h, Bytes.slice_take source h'.le]
    rfl
  | cons e rest ih =>
    have hstart : e.start ≤ j := h.2.1.trans h.2.2.le
    rw [List.cons_append, patch, patch, ih h.2.2, Bytes.slice_take source hstart,
      Bytes.slice_take source (hstart.trans h'.le)]
    simp only [List.append_assoc]

/-- Edits between two offsets leave what is before and behind. -/
theorem spliceAll_within (h : Ordered i j merged) (hj : j ≤ source.length) :
    spliceAll source merged =
      source.take i ++ patch (source.take j) i merged ++ source.drop j := by
  have hrest : Ordered j source.length [] := hj
  have hordered := h.append hrest
  have hpatch := patch_append source h hrest
  rw [List.append_nil] at hordered hpatch
  rw [List.take_length] at hpatch
  rw [spliceAll_eq_append hordered, hpatch, List.append_assoc]
  rfl

theorem makes_of_ordered (hm : merge (edits.filter (liesIn ⟨i, j⟩)) = .ok merged)
    (h : Ordered i j merged) (hj : j ≤ source.length) :
    Makes source edits ⟨i, j⟩ (patch (source.take j) i merged) := by
  rw [Makes, apply, hm, ← spliceAll_within h hj]
  rfl

theorem Applicable.exists_makes (h : Applicable source edits) (hij : i ≤ j)
    (hj : j ≤ source.length) : ∃ text, Makes source edits ⟨i, j⟩ text := by
  obtain ⟨merged, hmerged, hordered⟩ := h.exists_ordered hij
  exact ⟨_, makes_of_ordered hmerged hordered hj⟩

/-- A range without edits stays as it is. -/
theorem makes_slice (hij : i ≤ j) (h : ∀ e ∈ edits, e.liesIn ⟨i, j⟩ = false) :
    Makes source edits ⟨i, j⟩ (source.slice i j) := by
  have hnone : edits.filter (liesIn ⟨i, j⟩) = [] :=
    List.filter_eq_nil_iff.2 fun e he => by simp [h e he]
  rw [Makes, hnone, apply_nil, Bytes.take_append_slice source hij, List.take_append_drop]

/-- A range with one edit. -/
theorem makes_of_filter_eq (h : edits.filter (liesIn ⟨i, j⟩) = [e]) (hlt : e.start < e.stop)
    (hj : j ≤ source.length) : Makes source edits ⟨i, j⟩
      (source.slice i e.start ++ e.replacement ++ source.slice e.stop j) := by
  have hin : e ∈ edits.filter (liesIn ⟨i, j⟩) := h ▸ List.mem_singleton_self e
  obtain ⟨hstart, hstop⟩ := liesIn_iff.1 (List.mem_filter.1 hin).2
  have hordered : Ordered i j [e] := ⟨hstart, hlt.le, hstop⟩
  have hmerge : merge (edits.filter (liesIn ⟨i, j⟩)) = .ok [e] := by
    rw [h]
    simp [merge, mergeAfter]
  have hmakes := makes_of_ordered hmerge hordered hj
  rwa [patch, patch, Bytes.slice_take source (hlt.le.trans hstop)] at hmakes

theorem makes_of_filter_eq_self (h : edits.filter (liesIn r) = [⟨r.start, r.stop, text⟩])
    (hlt : r.start < r.stop) (hr : r.stop ≤ source.length) : Makes source edits r text := by
  have hmakes := makes_of_filter_eq h hlt hr
  rwa [Bytes.slice_self, Bytes.slice_self, List.nil_append, List.append_nil] at hmakes

/-- One edit that puts something in, if every edit in a range is that one. -/
theorem Applicable.filter_eq_singleton (h : Applicable source edits) (he : e ∈ edits)
    (hin : e.liesIn r = true) (hkeeps : e.isDeletion = false)
    (hall : ∀ x ∈ edits, x.liesIn r = true → x = e) : edits.filter (liesIn r) = [e] := by
  have hpairs := (h.filter (liesIn r)).compatible
  have hmem : e ∈ edits.filter (liesIn r) := List.mem_filter.2 ⟨he, hin⟩
  have hsame : ∀ x ∈ edits.filter (liesIn r), x = e := fun x hx =>
    hall x (List.mem_of_mem_filter hx) (List.mem_filter.1 hx).2
  have hlt := h.start_lt e he
  match hlist : edits.filter (liesIn r) with
  | [] => simp [hlist] at hmem
  | [x] => rw [hsame x (hlist ▸ List.mem_singleton_self x)]
  | x :: y :: rest =>
    -- Two copies of the edit would not be compatible.
    rw [hlist] at hpairs hsame
    have hxy := (List.pairwise_cons.1 hpairs).1 y List.mem_cons_self
    rw [hsame x List.mem_cons_self, hsame y (List.mem_cons_of_mem x List.mem_cons_self)] at hxy
    simp only [Compatible, Swallows, hkeeps] at hxy
    simp at hxy
    omega

/-- The edits that lie in a range lie in its parts if none reaches across. -/
theorem Applicable.filter_liesIn (h : Applicable source edits)
    (hcut : ∀ e ∈ edits, e.stop ≤ j ∨ j ≤ e.start) (hij : i ≤ j) (hjk : j ≤ k) :
    (edits.filter (liesIn ⟨i, k⟩)).filter (·.stop ≤ j) = edits.filter (liesIn ⟨i, j⟩) ∧
      (edits.filter (liesIn ⟨i, k⟩)).filter (fun e => ! decide (e.stop ≤ j)) =
        edits.filter (liesIn ⟨j, k⟩) := by
  rw [List.filter_filter, List.filter_filter]
  constructor
  · refine List.filter_congr fun e he => ?_
    rw [Bool.eq_iff_iff, Bool.and_eq_true, liesIn_iff, liesIn_iff, decide_eq_true_eq]
    dsimp only
    omega
  · refine List.filter_congr fun e he => ?_
    have hlt := h.start_lt e he
    have hside := hcut e he
    rw [Bool.eq_iff_iff, Bool.and_eq_true, liesIn_iff, liesIn_iff, Bool.not_eq_true',
      decide_eq_false_iff_not]
    dsimp only
    omega

/-- What edits make of two ranges, one next to the other, if none reaches across. -/
theorem Applicable.makes_append (h : Applicable source edits)
    (hcut : ∀ e ∈ edits, e.stop ≤ j ∨ j ≤ e.start) (hij : i ≤ j) (hjk : j ≤ k)
    (hk : k ≤ source.length) (hleft : Makes source edits ⟨i, j⟩ text)
    (hright : Makes source edits ⟨j, k⟩ text') : Makes source edits ⟨i, k⟩ (text ++ text') := by
  obtain ⟨merged, hmerged, hordered⟩ := h.exists_ordered hij
  obtain ⟨merged', hmerged', hordered'⟩ := h.exists_ordered hjk
  rw [hleft.unique (makes_of_ordered hmerged hordered (hjk.trans hk)),
    hright.unique (makes_of_ordered hmerged' hordered' hk),
    ← patch_append source hordered hordered']
  obtain ⟨hbefore, hbehind⟩ := h.filter_liesIn hcut hij hjk
  refine makes_of_ordered ?_ (hordered.append hordered') hk
  exact (h.filter (liesIn ⟨i, k⟩)).merge_eq (fun e he => hcut e (List.mem_of_mem_filter he))
    (hbefore ▸ hmerged) (hbehind ▸ hmerged')

/-- Of a whole source the edits make what applying them gives. -/
theorem Applicable.apply_eq (h : Applicable source edits)
    (hmakes : Makes source edits ⟨0, source.length⟩ text) : apply source edits = .ok text := by
  have hall : edits.filter (liesIn ⟨0, source.length⟩) = edits :=
    List.filter_eq_self.2 fun e he => liesIn_iff.2 ⟨Nat.zero_le _, h.stop_le e he⟩
  rw [Makes, hall] at hmakes
  simpa using hmakes

/-- Applying the edits puts what they make of a range in its place, if none reaches across an
end. -/
theorem Applicable.exists_apply_eq (h : Applicable source edits)
    (hcut : ∀ e ∈ edits, e.stop ≤ i ∨ j ≤ e.start ∨ (i ≤ e.start ∧ e.stop ≤ j)) (hij : i ≤ j)
    (hj : j ≤ source.length) (hmakes : Makes source edits ⟨i, j⟩ text) :
    ∃ before after, Makes source edits ⟨0, i⟩ before ∧
      Makes source edits ⟨j, source.length⟩ after ∧
      apply source edits = .ok (before ++ text ++ after) := by
  obtain ⟨before, hbefore⟩ := h.exists_makes (Nat.zero_le i) (hij.trans hj)
  obtain ⟨after, hafter⟩ := h.exists_makes hj le_rfl
  refine ⟨before, after, hbefore, hafter, h.apply_eq ?_⟩
  refine h.makes_append (fun e he => ?_) (Nat.zero_le j) hj le_rfl
    (h.makes_append (fun e he => ?_) (Nat.zero_le i) hij hj hbefore hmakes) hafter
  · have hlt := h.start_lt e he
    have hcase := hcut e he
    omega
  · have hlt := h.start_lt e he
    have hcase := hcut e he
    omega

theorem Ordered.start_le (h : Ordered i j merged) (he : e ∈ merged) : i ≤ e.start := by
  induction merged generalizing i with
  | nil => cases he
  | cons a rest ih =>
    rcases List.mem_cons.1 he with rfl | he
    · exact h.1
    · exact (h.1.trans h.2.1).trans (ih h.2.2 he)

/-- What edits make of a range, put together from what they make of ranges inside it that hold all
edits. -/
theorem Applicable.makes_patch (h : Applicable source edits) {pieces : List Edit}
    (hordered : Ordered i j pieces) (hj : j ≤ source.length)
    (hpieces : ∀ x ∈ pieces, Makes source edits ⟨x.start, x.stop⟩ x.replacement)
    (hedits : ∀ e ∈ edits, e.stop ≤ i ∨ j ≤ e.start ∨
      ∃ x ∈ pieces, x.start ≤ e.start ∧ e.stop ≤ x.stop) :
    Makes source edits ⟨i, j⟩ (patch (source.take j) i pieces) := by
  induction pieces generalizing i with
  | nil =>
    refine makes_slice hordered fun e he => ?_
    have hlt := h.start_lt e he
    have hout := hedits e he
    rw [← Bool.not_eq_true, liesIn_iff]
    simp only [List.not_mem_nil, false_and, exists_false, or_false] at hout
    dsimp only
    omega
  | cons x rest ih =>
    obtain ⟨hstart, hle, hrest⟩ := hordered
    rw [List.forall_mem_cons] at hpieces
    have hbehind : ∀ y ∈ rest, x.stop ≤ y.start := fun y hy => hrest.start_le hy
    have hside : ∀ e ∈ edits, e.stop ≤ i ∨ (x.start ≤ e.start ∧ e.stop ≤ x.stop) ∨
        x.stop ≤ e.start := by
      intro e he
      have hend := hrest.le
      rcases hedits e he with hout | hout | ⟨y, hy, hin⟩
      · exact .inl hout
      · exact .inr (.inr (hend.trans hout))
      · rcases List.mem_cons.1 hy with rfl | hy
        · exact .inr (.inl hin)
        · exact .inr (.inr ((hbehind y hy).trans hin.1))
    have hgap : Makes source edits ⟨i, x.start⟩ (source.slice i x.start) := by
      refine makes_slice hstart fun e he => ?_
      have hlt := h.start_lt e he
      have hout := hside e he
      rw [← Bool.not_eq_true, liesIn_iff]
      dsimp only
      omega
    have htail := ih hrest hpieces.2 fun e he => by
      rcases hedits e he with hout | hout | ⟨y, hy, hin⟩
      · exact .inl (hout.trans (hstart.trans hle))
      · exact .inr (.inl hout)
      · rcases List.mem_cons.1 hy with rfl | hy
        · exact .inl hin.2
        · exact .inr (.inr ⟨y, hy, hin⟩)
    have hhead := h.makes_append (fun e he => by have := hside e he; omega) hstart hle
      (hrest.le.trans hj) hgap hpieces.1
    rw [patch, Bytes.slice_take source (hle.trans hrest.le)]
    exact h.makes_append (fun e he => by have := hside e he; omega) (hstart.trans hle) hrest.le hj
      hhead htail

end Deadwood.Edit
