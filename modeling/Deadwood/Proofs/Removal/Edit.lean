import Deadwood.Proofs.Text.Boundary
import Deadwood.Removal.Edit
import Mathlib.Order.MinMax

/-!
Merging and splicing edits. Ordered edits merge without a conflict if each admits those after it
(`exists_merge`), and what has been merged lies in order without overlap, so splicing leaves the
bytes between the edits and puts each replacement in its place (`spliceAll_eq`).
-/
namespace Deadwood.Edit

variable {source : Bytes} {a b e : Edit}

theorem isDeletion_iff : e.isDeletion = true ↔ e.replacement = [] := by
  simp [isDeletion]

theorem le_iff : le a b = true ↔ a.start < b.start ∨ a.start = b.start ∧ b.stop ≤ a.stop := by
  unfold le
  rcases lt_trichotomy a.start b.start with h | h | h
  · simp [Nat.compare_eq_lt.2 h, h]
  · simp [h, Nat.isLE_compare]
  · simp [Nat.compare_eq_gt.2 h]
    omega

theorem le_of_le_of_le {c : Edit} (hab : le a b = true) (hbc : le b c = true) : le a c = true := by
  rw [le_iff] at hab hbc ⊢
  omega

theorem le_or_le (a b : Edit) : (le a b || le b a) = true := by
  rw [Bool.or_eq_true, le_iff, le_iff]
  omega

/-- In the order in which edits are merged. -/
def Sorted (edits : List Edit) : Prop := edits.Pairwise fun a b => le a b = true

namespace Sorted

variable {rest : List Edit}

theorem tail (h : Sorted (a :: rest)) : Sorted rest := (List.pairwise_cons.1 h).2

theorem le_of_mem (h : Sorted (a :: rest)) (hb : b ∈ rest) :
    a.start < b.start ∨ a.start = b.start ∧ b.stop ≤ a.stop :=
  le_iff.1 ((List.pairwise_cons.1 h).1 b hb)

theorem start_le (h : Sorted (a :: rest)) (hb : b ∈ rest) : a.start ≤ b.start := by
  have := h.le_of_mem hb
  omega

theorem head_start_le (h : Sorted (a :: rest)) (hb : b ∈ a :: rest) : a.start ≤ b.start := by
  rcases List.mem_cons.1 hb with rfl | hb
  · exact le_rfl
  · exact h.start_le hb

theorem swallow (h : Sorted (a :: b :: rest)) : Sorted (a :: rest) :=
  h.sublist (List.Sublist.cons_cons a (List.sublist_cons_self b rest))

theorem join (h : Sorted (a :: b :: rest)) : Sorted (cover a b :: rest) := by
  refine List.pairwise_cons.2 ⟨fun c hc => ?_, h.swallow.tail⟩
  have hac := h.le_of_mem (List.mem_cons_of_mem b hc)
  rw [le_iff]
  simp only [cover]
  omega

end Sorted

theorem sorted_mergeSort (edits : List Edit) : Sorted (edits.mergeSort le) := by
  apply List.pairwise_mergeSort
  · exact fun _ _ _ => le_of_le_of_le
  · exact le_or_le

/-- A later edit that overlaps is swallowed or joined by a deletion. -/
def Admits (a b : Edit) : Prop :=
  b.start < a.stop → a.isDeletion = true ∧ (b.isDeletion = true ∨ b.stop ≤ a.stop)

theorem isDeletion_cover (a b : Edit) : (cover a b).isDeletion = true := rfl

theorem Admits.cover {c : Edit} (ha : Admits a c) (hb : Admits b c) : Admits (cover a b) c := by
  intro h
  refine ⟨isDeletion_cover a b, ?_⟩
  simp only [Edit.cover] at h ⊢
  rcases lt_max_iff.1 h with h | h
  · exact (ha h).2.imp_right fun h => h.trans (le_max_left _ _)
  · exact (hb h).2.imp_right fun h => h.trans (le_max_right _ _)

theorem exists_mergeAfter (a : Edit) (edits : List Edit) (ha : ∀ b ∈ edits, Admits a b)
    (h : edits.Pairwise Admits) : ∃ merged, mergeAfter a edits = .ok merged := by
  induction edits generalizing a with
  | nil => exact ⟨[a], rfl⟩
  | cons b rest ih =>
    rw [List.forall_mem_cons] at ha
    rw [List.pairwise_cons] at h
    unfold mergeAfter
    by_cases hlt : b.start < a.stop
    · obtain ⟨hdel, hb⟩ := ha.1 hlt
      rw [if_pos hlt]
      by_cases hin : b.stop ≤ a.stop
      · rw [if_pos ⟨hdel, hin⟩]
        exact ih a ha.2 h.2
      · rw [if_neg (fun hc => hin hc.2), if_pos ⟨hdel, hb.resolve_right hin⟩]
        exact ih (Edit.cover a b) (fun c hc => (ha.2 c hc).cover (h.1 c hc)) h.2
    · rw [if_neg hlt]
      obtain ⟨merged, hm⟩ := ih b h.1 h.2
      exact ⟨a :: merged, by rw [hm]; rfl⟩

theorem exists_merge (edits : List Edit) (h : (edits.mergeSort le).Pairwise Admits) :
    ∃ merged, merge edits = .ok merged := by
  unfold merge
  cases hs : edits.mergeSort le with
  | nil => exact ⟨[], rfl⟩
  | cons e rest =>
    rw [hs, List.pairwise_cons] at h
    exact exists_mergeAfter e rest h.1 h.2

/-- A deletion that covers more than the other edit. -/
def Swallows (a b : Edit) : Prop :=
  a.isDeletion = true ∧ a.start ≤ b.start ∧ b.stop ≤ a.stop ∧ (a.start < b.start ∨ b.stop < a.stop)

/-- Edits that merge in either order: deletions, edits apart, or one that swallows the other. -/
def Compatible (a b : Edit) : Prop :=
  (a.isDeletion = true ∧ b.isDeletion = true) ∨ a.stop ≤ b.start ∨ b.stop ≤ a.start ∨
    Swallows a b ∨ Swallows b a

theorem Compatible.symm (h : Compatible a b) : Compatible b a := by
  rcases h with ⟨ha, hb⟩ | h | h | h | h
  · exact .inl ⟨hb, ha⟩
  · exact .inr (.inr (.inl h))
  · exact .inr (.inl h)
  · exact .inr (.inr (.inr (.inr h)))
  · exact .inr (.inr (.inr (.inl h)))

theorem Compatible.admits (h : Compatible a b) (hb : b.start < b.stop) (hle : le a b = true) :
    Admits a b := by
  intro hlt
  rw [le_iff] at hle
  -- The later edit starts inside the earlier one, so it cannot be the one that swallows.
  rcases h with h | h | h | ⟨hdel, -, hstop, -⟩ | ⟨-, hstart, hstop, hmore⟩
  · exact ⟨h.1, .inl h.2⟩
  · omega
  · omega
  · exact ⟨hdel, .inr hstop⟩
  · omega

theorem exists_merge_of_compatible {edits : List Edit} (h : edits.Pairwise Compatible)
    (hne : ∀ e ∈ edits, e.start < e.stop) : ∃ merged, merge edits = .ok merged := by
  apply exists_merge
  have hsort := (List.mergeSort_perm edits le).symm.pairwise h Compatible.symm
  refine (hsort.and (sorted_mergeSort edits)).imp_of_mem ?_
  intro a b _ hb hab
  exact hab.1.admits (hne b (List.mem_mergeSort.1 hb)) hab.2

/-- How ordered edits merge into the one before them. -/
inductive Merges : Edit → List Edit → List Edit → Prop
  | last (a : Edit) : Merges a [] [a]
  | swallow {a b : Edit} {rest merged : List Edit} : b.start < a.stop → a.isDeletion = true →
      b.stop ≤ a.stop → Merges a rest merged → Merges a (b :: rest) merged
  | join {a b : Edit} {rest merged : List Edit} : b.start < a.stop → a.isDeletion = true →
      b.isDeletion = true → a.stop < b.stop → Merges (cover a b) rest merged →
      Merges a (b :: rest) merged
  | next {a b : Edit} {rest merged : List Edit} : a.stop ≤ b.start → Merges b rest merged →
      Merges a (b :: rest) (a :: merged)

theorem merges_of_mergeAfter {edits merged : List Edit} (h : mergeAfter a edits = .ok merged) :
    Merges a edits merged := by
  induction edits generalizing a merged with
  | nil =>
    simp only [mergeAfter, Except.ok.injEq] at h
    exact h ▸ .last a
  | cons b rest ih =>
    unfold mergeAfter at h
    split at h
    · next hlt =>
      split at h
      · next hin => exact .swallow hlt hin.1 hin.2 (ih h)
      · next hout =>
        split at h
        · next hdel => exact .join hlt hdel.1 hdel.2 (by simpa [hdel.1] using hout) (ih h)
        · cases h
    · next hlt =>
      cases hr : mergeAfter b rest with
      | error c => simp [hr, Except.map] at h
      | ok merged' =>
        simp only [hr, Except.map, Except.ok.injEq] at h
        exact h ▸ .next (Nat.le_of_not_lt hlt) (ih hr)

/-- What holds of all edits, and of the cover of two deletions that overlap, holds of what they
merge to. -/
theorem Merges.forall_mem {P : Edit → Prop} {edits merged : List Edit} (h : Merges a edits merged)
    (hcover : ∀ a b, P a → P b → a.start ≤ b.start → b.start < a.stop → P (cover a b))
    (hs : Sorted (a :: edits)) (hall : ∀ b ∈ a :: edits, P b) : ∀ e ∈ merged, P e := by
  induction h with
  | last => exact hall
  | swallow _ _ _ _ ih =>
    rw [List.forall_mem_cons, List.forall_mem_cons] at hall
    exact ih hs.swallow (List.forall_mem_cons.2 ⟨hall.1, hall.2.2⟩)
  | join hlt _ _ _ _ ih =>
    rw [List.forall_mem_cons, List.forall_mem_cons] at hall
    have hcovered := hcover _ _ hall.1 hall.2.1 (hs.start_le List.mem_cons_self) hlt
    exact ih hs.join (List.forall_mem_cons.2 ⟨hcovered, hall.2.2⟩)
  | next _ _ ih =>
    rw [List.forall_mem_cons] at hall ⊢
    exact ⟨hall.1, ih hs.tail hall.2⟩

/-- Edits are sorted and each is merged into the one before. -/
theorem merge_cases {edits merged : List Edit} (h : merge edits = .ok merged) :
    (edits = [] ∧ merged = []) ∨
      ∃ e rest, (e :: rest).Perm edits ∧ Sorted (e :: rest) ∧ Merges e rest merged := by
  have hperm := List.mergeSort_perm edits le
  have hs := sorted_mergeSort edits
  unfold merge at h
  cases hsort : edits.mergeSort le with
  | nil =>
    simp only [hsort, Except.ok.injEq] at h
    rw [hsort, List.nil_perm] at hperm
    exact .inl ⟨hperm, h.symm⟩
  | cons e rest =>
    rw [hsort] at hperm hs
    simp only [hsort] at h
    exact .inr ⟨e, rest, hperm, hs, merges_of_mergeAfter h⟩

theorem forall_merge {P : Edit → Prop} {edits merged : List Edit}
    (hcover : ∀ a b, P a → P b → a.start ≤ b.start → b.start < a.stop → P (cover a b))
    (h : ∀ e ∈ edits, P e) (hm : merge edits = .ok merged) : ∀ e ∈ merged, P e := by
  rcases merge_cases hm with ⟨-, rfl⟩ | ⟨e, rest, hperm, hs, hm⟩
  · simp
  · exact hm.forall_mem hcover hs fun b hb => h b (hperm.mem_iff.1 hb)

/-- From an offset to a last one, one edit after another. -/
def Ordered (first last : Nat) : List Edit → Prop
  | [] => first ≤ last
  | e :: rest => first ≤ e.start ∧ e.start ≤ e.stop ∧ Ordered e.stop last rest

theorem Ordered.le {first last : Nat} {edits : List Edit} (h : Ordered first last edits) :
    first ≤ last := by
  induction edits generalizing first with
  | nil => exact h
  | cons e rest ih => exact (h.1.trans h.2.1).trans (ih h.2.2)

theorem Ordered.mono {first first' last : Nat} {edits : List Edit} (h : Ordered first last edits)
    (hle : first' ≤ first) : Ordered first' last edits := by
  cases edits with
  | nil => exact hle.trans h
  | cons e rest => exact ⟨hle.trans h.1, h.2⟩

/-- The range of an edit within a source of a given length. -/
def FitsIn (n : Nat) (e : Edit) : Prop := e.start ≤ e.stop ∧ e.stop ≤ n

theorem Merges.ordered {n : Nat} {edits merged : List Edit} (h : Merges a edits merged)
    (hs : Sorted (a :: edits)) (hfits : ∀ b ∈ a :: edits, b.FitsIn n) :
    Ordered a.start n merged := by
  induction h with
  | last a =>
    have ha := hfits a List.mem_cons_self
    exact ⟨le_rfl, ha.1, ha.2⟩
  | swallow _ _ _ _ ih =>
    rw [List.forall_mem_cons, List.forall_mem_cons] at hfits
    exact ih hs.swallow (List.forall_mem_cons.2 ⟨hfits.1, hfits.2.2⟩)
  | join _ _ _ _ _ ih =>
    rw [List.forall_mem_cons, List.forall_mem_cons] at hfits
    obtain ⟨ha, hb, hrest⟩ := hfits
    refine ih hs.join (List.forall_mem_cons.2 ⟨?_, hrest⟩)
    exact ⟨ha.1.trans (le_max_left _ _), max_le ha.2 hb.2⟩
  | next hle _ ih =>
    rw [List.forall_mem_cons] at hfits
    exact ⟨le_rfl, hfits.1.1, (ih hs.tail hfits.2).mono hle⟩

theorem ordered_merge {n : Nat} {edits merged : List Edit} (h : ∀ e ∈ edits, e.FitsIn n)
    (hm : merge edits = .ok merged) : Ordered 0 n merged := by
  rcases merge_cases hm with ⟨-, rfl⟩ | ⟨e, rest, hperm, hs, hm⟩
  · exact Nat.zero_le n
  · exact (hm.ordered hs fun b hb => h b (hperm.mem_iff.1 hb)).mono (Nat.zero_le _)

/-- The source from an offset on, with the edits in place. -/
def patch (source : Bytes) (offset : Nat) : List Edit → Bytes
  | [] => source.drop offset
  | e :: rest => source.slice offset e.start ++ e.replacement ++ patch source e.stop rest

theorem spliceAll_eq_append {offset : Nat} {edits : List Edit}
    (h : Ordered offset source.length edits) :
    spliceAll source edits = source.take offset ++ patch source offset edits := by
  induction edits generalizing offset with
  | nil => exact (List.take_append_drop offset source).symm
  | cons e rest ih =>
    obtain ⟨hstart, hstop, hrest⟩ := h
    have hlen : (source.take e.stop).length = e.stop := by
      rw [List.length_take, min_eq_left hrest.le]
    have hmax : max e.start e.stop = e.stop := max_eq_right hstop
    have hstep : spliceAll source (e :: rest) = splice (spliceAll source rest) e := rfl
    rw [hstep, ih hrest, splice, hmax, List.drop_append_of_le_length hlen.ge,
      List.take_append_of_le_length (hlen.symm ▸ hstop), List.take_take, min_eq_left hstop]
    rw [List.drop_of_length_le hlen.le, List.nil_append, patch,
      ← Bytes.take_append_slice source hstart]
    simp only [List.append_assoc]

/-- Splicing leaves what lies between the edits. -/
theorem spliceAll_eq {edits : List Edit} (h : Ordered 0 source.length edits) :
    spliceAll source edits = patch source 0 edits := by
  rw [spliceAll_eq_append h, List.take_zero, List.nil_append]

theorem apply_eq_ok {edits : List Edit} {text : Bytes} (h : apply source edits = .ok text) :
    ∃ merged, merge edits = .ok merged ∧ spliceAll source merged = text := by
  unfold apply at h
  cases hm : merge edits with
  | error c => simp [hm, Except.map] at h
  | ok merged =>
    simp only [hm, Except.map, Except.ok.injEq] at h
    exact ⟨merged, rfl, h⟩

theorem isValid_patch {offset : Nat} {edits : List Edit} (hs : Utf8.isValid source = true)
    (ho : Utf8.isBoundary source offset = true)
    (h : ∀ e ∈ edits, Utf8.isBoundary source e.start = true ∧
      Utf8.isBoundary source e.stop = true ∧ Utf8.isValid e.replacement = true) :
    Utf8.isValid (patch source offset edits) = true := by
  induction edits generalizing offset with
  | nil => exact Utf8.isValid_drop hs ho
  | cons e rest ih =>
    rw [List.forall_mem_cons] at h
    obtain ⟨⟨hstart, hstop, hrepl⟩, hrest⟩ := h
    exact Utf8.isValid_append (Utf8.isValid_append (Utf8.isValid_slice ho hstart) hrepl)
      (ih hstop hrest)

theorem patch_eq_append {offset offset' last : Nat} {edits : List Edit}
    (h : Ordered offset' last edits) (hle : offset ≤ offset') :
    patch source offset edits = source.slice offset offset' ++ patch source offset' edits := by
  cases edits with
  | nil => exact (Bytes.slice_append_drop source hle).symm
  | cons e rest =>
    rw [patch, patch, ← Bytes.slice_append_slice source hle h.1]
    simp only [List.append_assoc]

/-- The texts stand in another one after the other. -/
def InOrder : List Bytes → Bytes → Prop
  | [], _ => True
  | t :: rest, text => ∃ before after, text = before ++ t ++ after ∧ InOrder rest after

/-- A range that no edit touches is in the patched text, before what comes after it. -/
theorem exists_patch_eq {offset start stop : Nat} {edits : List Edit}
    (h : Ordered offset source.length edits) (hstart : offset ≤ start) (hle : start ≤ stop)
    (hstop : stop ≤ source.length) (hout : ∀ e ∈ edits, stop ≤ e.start ∨ e.stop ≤ start) :
    ∃ before rest, rest ⊆ edits ∧ Ordered stop source.length rest ∧
      patch source offset edits = before ++ source.slice start stop ++ patch source stop rest := by
  induction edits generalizing offset with
  | nil =>
    refine ⟨source.slice offset start, [], List.Subset.refl _, hstop, ?_⟩
    rw [patch, patch, List.append_assoc, Bytes.slice_append_drop source hle,
      Bytes.slice_append_drop source hstart]
  | cons e rest ih =>
    rw [List.forall_mem_cons] at hout
    -- Either the range ends before the first edit or the search goes on behind it.
    rcases hout.1 with hbefore | hafter
    · refine ⟨source.slice offset start, e :: rest, List.Subset.refl _, ⟨hbefore, h.2⟩, ?_⟩
      have hordered : Ordered stop source.length (e :: rest) := ⟨hbefore, h.2⟩
      rw [patch_eq_append hordered (hstart.trans hle), Bytes.slice_append_slice source hstart hle]
    · obtain ⟨before, rest', hsub, hordered, heq⟩ := ih h.2.2 hafter hout.2
      refine ⟨source.slice offset e.start ++ e.replacement ++ before, rest',
        List.subset_cons_of_subset e hsub, hordered, ?_⟩
      rw [patch, heq]
      simp only [List.append_assoc]

/-- Ranges that no edit touches stand in the patched text in their order. -/
theorem inOrder_patch (ranges : List (Nat × Nat)) {offset : Nat} {edits : List Edit}
    (h : Ordered offset source.length edits)
    (hranges : ∀ r ∈ ranges, offset ≤ r.1 ∧ r.1 ≤ r.2 ∧ r.2 ≤ source.length)
    (hsorted : ranges.Pairwise fun a b => a.2 ≤ b.1)
    (hout : ∀ r ∈ ranges, ∀ e ∈ edits, r.2 ≤ e.start ∨ e.stop ≤ r.1) :
    InOrder (ranges.map fun r => source.slice r.1 r.2) (patch source offset edits) := by
  induction ranges generalizing offset edits with
  | nil => trivial
  | cons r rest ih =>
    rw [List.forall_mem_cons] at hranges hout
    rw [List.pairwise_cons] at hsorted
    obtain ⟨⟨hstart, hle, hstop⟩, hrest⟩ := hranges
    obtain ⟨before, edits', hsub, hordered, heq⟩ := exists_patch_eq h hstart hle hstop hout.1
    refine ⟨before, patch source r.2 edits', heq, ih hordered ?_ hsorted.2 ?_⟩
    · exact fun a ha => ⟨hsorted.1 a ha, (hrest a ha).2⟩
    · exact fun a ha e he => hout.2 a ha e (hsub he)

end Deadwood.Edit
