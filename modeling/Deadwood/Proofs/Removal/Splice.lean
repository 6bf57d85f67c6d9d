import Deadwood.Proofs.Removal.Edit
import Deadwood.Text.Utf8
import Mathlib.Data.List.Chain
import Mathlib.Data.List.Permutation

/-!
Applying edits as one splice. Merging leaves given edits and deletions joined from overlapping ones,
one after another, and these cover what the given edits cover. So the result is the source outside
the ranges with the replacements that survive in their places (`apply_splices`).
-/
namespace Deadwood.Edit

section Splice

variable {source text : Bytes} {a b d e s : Edit} {edits edits' rest merged chain : List Edit}
  {i n offset : Nat}

/-! ### What is covered -/

/-- The offset lies in the range of an edit. -/
def covered (edits : List Edit) (i : Nat) : Bool :=
  edits.any fun e => decide (e.start ≤ i ∧ i < e.stop)

theorem covered_iff : covered edits i = true ↔ ∃ e ∈ edits, e.start ≤ i ∧ i < e.stop := by
  simp [covered]

theorem covered_cons_iff : covered (e :: edits) i = true ↔
    (e.start ≤ i ∧ i < e.stop) ∨ covered edits i = true := by
  simp [covered]

theorem covered_of_perm (h : edits.Perm edits') (i : Nat) : covered edits i = covered edits' i :=
  h.any_eq

/-- Merging neither uncovers an offset nor covers another one. -/
theorem Merges.covered_iff (h : Merges a edits merged) (hs : Sorted (a :: edits)) (i : Nat) :
    covered merged i = true ↔ covered (a :: edits) i = true := by
  induction h with
  | last => rfl
  | swallow hlt _ hin _ ih =>
    have hab := hs.start_le List.mem_cons_self
    rw [ih hs.swallow, covered_cons_iff, covered_cons_iff, covered_cons_iff, ← or_assoc]
    exact or_congr_left (by omega)
  | join hlt _ _ hout _ ih =>
    have hab := hs.start_le List.mem_cons_self
    rw [ih hs.join, covered_cons_iff, covered_cons_iff, covered_cons_iff, ← or_assoc]
    exact or_congr_left (by simp only [cover]; omega)
  | next _ _ ih => rw [covered_cons_iff, covered_cons_iff, ih hs.tail]

/-! ### Where the survivors come from -/

/-- The later edit starts in the earlier one and ends behind it. -/
def Overlaps (a b : Edit) : Prop := a.start ≤ b.start ∧ b.start < a.stop ∧ a.stop < b.stop

/-- A deletion of all that a chain of overlapping deletions takes. -/
structure Joins (edits chain : List Edit) (s : Edit) : Prop where
  given : ∀ d ∈ chain, d ∈ edits ∧ d.isDeletion = true
  overlaps : chain.IsChain Overlaps
  first : chain.head?.map (·.start) = some s.start
  last : chain.getLast?.map (·.stop) = some s.stop
  isDeletion : s.isDeletion = true

theorem Joins.singleton (ha : a ∈ edits) (hdel : a.isDeletion = true) : Joins edits [a] a where
  given := by simpa using ⟨ha, hdel⟩
  overlaps := List.isChain_singleton a
  first := rfl
  last := rfl
  isDeletion := hdel

theorem Joins.concat (h : Joins edits chain a) (hb : b ∈ edits) (hdel : b.isDeletion = true)
    (hstart : ∀ d ∈ chain, d.start ≤ b.start) (hlt : b.start < a.stop) (hout : a.stop < b.stop) :
    Joins edits (chain ++ [b]) (cover a b) where
  given d hd := by
    rcases List.mem_append.1 hd with hd | hd
    · exact h.given d hd
    · exact List.mem_singleton.1 hd ▸ ⟨hb, hdel⟩
  overlaps := by
    refine List.isChain_append.2 ⟨h.overlaps, List.isChain_singleton b, ?_⟩
    intro d hd c hc
    obtain rfl : b = c := by simpa using hc
    have hlast := h.last
    rw [Option.mem_def.1 hd, Option.map_some, Option.some.injEq] at hlast
    exact ⟨hstart d (List.mem_of_getLast? hd), hlast ▸ hlt, hlast ▸ hout⟩
  first := by
    have hfirst := h.first
    cases chain with
    | nil => cases hfirst
    | cons c chain => exact hfirst
  last := by
    rw [List.getLast?_concat, Option.map_some, cover, max_eq_right hout.le]
  isDeletion := isDeletion_cover a b

/-- A given edit or a deletion joined from given ones. -/
def Stems (edits : List Edit) (s : Edit) : Prop := s ∈ edits ∨ ∃ chain, Joins edits chain s

/-- The edit before the others is given, or joined from ones that start no later than these. -/
theorem Merges.stems {all : List Edit} (h : Merges a edits merged) (hs : Sorted (a :: edits))
    (hall : ∀ b ∈ edits, b ∈ all)
    (ha : a ∈ all ∨ ∃ chain, Joins all chain a ∧ ∀ d ∈ chain, ∀ b ∈ edits, d.start ≤ b.start) :
    ∀ s ∈ merged, Stems all s := by
  have hstems : Stems all a := ha.imp_right fun ⟨chain, hchain, _⟩ => ⟨chain, hchain⟩
  induction h with
  | last => simpa using hstems
  | @swallow a b rest merged _ _ _ _ ih =>
    rw [List.forall_mem_cons] at hall
    refine ih hs.swallow hall.2 (ha.imp_right fun ⟨chain, hchain, hstart⟩ => ?_) hstems
    exact ⟨chain, hchain, fun d hd c hc => hstart d hd c (List.mem_cons_of_mem b hc)⟩
  | @join a b rest merged hlt hdel hdel' hout _ ih =>
    rw [List.forall_mem_cons] at hall
    -- The chain of the deletion before, if only of itself, goes on with this one.
    obtain ⟨chain, hchain, hstart⟩ :
        ∃ chain, Joins all chain a ∧ ∀ d ∈ chain, ∀ c ∈ b :: rest, d.start ≤ c.start := by
      rcases ha with ha | ha
      · refine ⟨[a], .singleton ha hdel, ?_⟩
        rw [List.forall_mem_singleton]
        exact fun c hc => hs.start_le hc
      · exact ha
    have hjoin := hchain.concat hall.1 hdel' (fun d hd => hstart d hd b List.mem_cons_self) hlt hout
    refine ih hs.join hall.2 (.inr ⟨_, hjoin, fun d hd c hc => ?_⟩) (.inr ⟨_, hjoin⟩)
    rcases List.mem_append.1 hd with hd | hd
    · exact hstart d hd c (List.mem_cons_of_mem b hc)
    · rw [List.mem_singleton.1 hd]
      exact hs.tail.start_le hc
  | next _ _ ih =>
    rw [List.forall_mem_cons] at hall ⊢
    exact ⟨hstems, ih hs.tail hall.2 (.inl hall.1) (.inl hall.1)⟩

/-! ### What is kept -/

/-- A deletion takes an edit in: the edit starts in its range and does not reach out of it. -/
def Absorbs (d e : Edit) : Prop :=
  d.isDeletion = true ∧ d.start ≤ e.start ∧ e.start < d.stop ∧ e.stop ≤ d.stop

theorem Absorbs.mono (h : Absorbs a e) (hdel : b.isDeletion = true) (hstart : b.start ≤ e.start)
    (hstop : a.stop ≤ b.stop) : Absorbs b e :=
  ⟨hdel, hstart, h.2.2.1.trans_le hstop, h.2.2.2.trans hstop⟩

theorem Merges.exists_deletion (h : Merges a edits merged) (ha : a.isDeletion = true) :
    ∃ d ∈ merged, d.isDeletion = true ∧ d.start = a.start ∧ a.stop ≤ d.stop := by
  induction h with
  | last a => exact ⟨a, List.mem_singleton_self a, ha, rfl, le_rfl⟩
  | swallow _ _ _ _ ih => exact ih ha
  | join _ _ _ _ _ ih =>
    obtain ⟨d, hd, hdel, hstart, hstop⟩ := ih (isDeletion_cover _ _)
    exact ⟨d, hd, hdel, hstart, (le_max_left _ _).trans hstop⟩
  | @next a _ _ _ _ _ _ => exact ⟨a, List.mem_cons_self, ha, rfl, le_rfl⟩

theorem Merges.start_le (h : Merges a edits merged) (hs : Sorted (a :: edits)) :
    ∀ s ∈ merged, a.start ≤ s.start := by
  induction h with
  | last => simp
  | swallow _ _ _ _ ih => exact ih hs.swallow
  | join _ _ _ _ _ ih => exact ih hs.join
  | next _ _ ih =>
    rw [List.forall_mem_cons]
    exact ⟨le_rfl, fun s hmem => (hs.start_le List.mem_cons_self).trans (ih hs.tail s hmem)⟩

theorem ne_of_isDeletion (hd : d.isDeletion = true) (he : e.isDeletion = false) : d ≠ e := by
  rintro rfl
  rw [hd] at he
  cases he

/-- Nothing is left of an edit that the deletion before takes in. -/
theorem Merges.count_eq_zero (h : Merges a edits merged) (hs : Sorted (a :: edits))
    (he : e.isDeletion = false) (ha : Absorbs a e) : merged.count e = 0 := by
  induction h with
  | last => exact List.count_eq_zero.2 fun hmem =>
      ne_of_isDeletion ha.1 he (List.mem_singleton.1 hmem).symm
  | swallow _ _ _ _ ih => exact ih hs.swallow ha
  | join _ _ _ _ _ ih =>
    exact ih hs.join (ha.mono (isDeletion_cover _ _) ha.2.1 (le_max_left _ _))
  | next hlt hm _ =>
    -- What comes next starts behind the edit.
    rw [List.count_cons_of_ne (ne_of_isDeletion ha.1 he)]
    refine List.count_eq_zero.2 fun hmem => ?_
    have hstart := hm.start_le hs.tail e hmem
    have hin := ha.2.2.1
    omega

/-- An edit that puts something in is kept as often as it is given, or a deletion takes it in. -/
theorem Merges.kept (h : Merges a edits merged) (hs : Sorted (a :: edits))
    (he : e.isDeletion = false) : merged.count e = (a :: edits).count e ∨
      merged.count e = 0 ∧ ∃ d ∈ merged, Absorbs d e := by
  induction h with
  | last => exact .inl rfl
  | @swallow a b rest merged hlt hdel hin hm ih =>
    have hab := hs.start_le List.mem_cons_self
    by_cases hb : b = e
    · subst hb
      obtain ⟨d, hd, hdel', hstart, hstop⟩ := hm.exists_deletion hdel
      exact .inr ⟨hm.count_eq_zero hs.swallow he ⟨hdel, hab, hlt, hin⟩,
        d, hd, hdel', by omega, by omega, hin.trans hstop⟩
    · refine (ih hs.swallow).imp_left fun hcount => ?_
      rw [hcount, List.count_cons_of_ne (ne_of_isDeletion hdel he),
        List.count_cons_of_ne (ne_of_isDeletion hdel he), List.count_cons_of_ne hb]
  | @join a b rest merged _ hdel hdel' _ _ ih =>
    refine (ih hs.join).imp_left fun hcount => ?_
    rw [hcount, List.count_cons_of_ne (ne_of_isDeletion (isDeletion_cover a b) he),
      List.count_cons_of_ne (ne_of_isDeletion hdel he),
      List.count_cons_of_ne (ne_of_isDeletion hdel' he)]
  | @next a b rest merged hlt hm ih =>
    rcases ih hs.tail with hcount | ⟨hcount, d, hd, hin⟩
    · exact .inl (by rw [List.count_cons, hcount, ← List.count_cons])
    · by_cases ha : a = e
      · -- A deletion that takes it in would come before it.
        subst ha
        obtain ⟨c, hc, hstart, hstop⟩ := Edit.covered_iff.1
          ((hm.covered_iff hs.tail a.start).1 (Edit.covered_iff.2 ⟨d, hd, hin.2.1, hin.2.2.1⟩))
        have hac := hs.le_of_mem hc
        have hbc := hs.tail.head_start_le hc
        omega
      · exact .inr ⟨by rw [List.count_cons_of_ne ha, hcount], d, List.mem_cons_of_mem _ hd, hin⟩

/-- What is left of edits when they are merged. -/
structure Survive (edits survivors : List Edit) : Prop where
  covered_eq : ∀ i, covered survivors i = covered edits i
  stems : ∀ s ∈ survivors, Stems edits s
  kept : ∀ e, e.isDeletion = false → survivors.count e = edits.count e ∨
    survivors.count e = 0 ∧ ∃ d ∈ survivors, Absorbs d e

theorem Joins.of_perm (h : Joins edits chain s) (hperm : edits.Perm edits') :
    Joins edits' chain s where
  given d hd := (h.given d hd).imp_left hperm.mem_iff.1
  overlaps := h.overlaps
  first := h.first
  last := h.last
  isDeletion := h.isDeletion

theorem Stems.of_perm (h : Stems edits s) (hperm : edits.Perm edits') : Stems edits' s :=
  h.imp hperm.mem_iff.1 fun ⟨chain, hchain⟩ => ⟨chain, hchain.of_perm hperm⟩

theorem survive_of_merge (h : merge edits = .ok merged) : Survive edits merged := by
  rcases merge_cases h with ⟨rfl, rfl⟩ | ⟨a, rest, hperm, hs, hm⟩
  · exact ⟨fun _ => rfl, by simp, by simp⟩
  · refine ⟨fun i => ?_, fun s hmem => ?_, fun e hkeeps => ?_⟩
    · rw [← covered_of_perm hperm, Bool.eq_iff_iff, hm.covered_iff hs]
    · refine Stems.of_perm ?_ hperm
      exact hm.stems hs (fun b hb => List.mem_cons_of_mem a hb) (.inl List.mem_cons_self) s hmem
    · rw [← hperm.count_eq]
      exact hm.kept hs hkeeps

/-! ### The bytes that stay -/

/-- The bytes that no edit covers. -/
def uncovered (source : Bytes) (edits : List Edit) : Bytes :=
  (source.zipIdx.filter fun b => ! covered edits b.2).map (·.1)

/-- The edit without what it puts in. -/
def blank (e : Edit) : Edit := { e with replacement := [] }

theorem blank_of_isDeletion (h : e.isDeletion = true) : blank e = e := by
  rw [isDeletion_iff] at h
  rw [blank, ← h]

theorem not_covered_of_ordered (h : Ordered offset n edits) (hi : i < offset) :
    covered edits i = false := by
  induction edits generalizing offset with
  | nil => rfl
  | cons e rest ih =>
    rw [← Bool.not_eq_true, covered_cons_iff, ih h.2.2 (by have := h.1; have := h.2.1; omega)]
    have hstart := h.1
    simp only [Bool.false_eq_true, or_false]
    omega

/-- Nothing is covered before the first of ordered edits, and behind it what the others cover. -/
theorem covered_of_ordered (h : Ordered offset n (e :: rest)) (i : Nat) :
    covered (e :: rest) i =
      if i < e.start then false else if i < e.stop then true else covered rest i := by
  have hstart := h.2.1
  split
  · rw [← Bool.not_eq_true, covered_cons_iff, not_covered_of_ordered h.2.2 (by omega)]
    simp only [Bool.false_eq_true, or_false]
    omega
  · split
    · exact covered_cons_iff.2 (.inl (by omega))
    · rw [Bool.eq_iff_iff, covered_cons_iff, or_iff_right]
      omega

theorem mem_zipIdx_slice {b : UInt8 × Nat} {j : Nat} (hb : b ∈ (source.slice i j).zipIdx i) :
    i ≤ b.2 ∧ b.2 < j := by
  obtain ⟨hle, hlt, -⟩ := List.mem_zipIdx hb
  rw [Bytes.length_slice] at hlt
  omega

theorem zipIdx_drop {j : Nat} (hij : i ≤ j) (hj : j ≤ source.length) :
    (source.drop i).zipIdx i = (source.slice i j).zipIdx i ++ (source.drop j).zipIdx j := by
  have hlength : i + (source.slice i j).length = j := by
    rw [Bytes.length_slice]
    omega
  rw [← Bytes.slice_append_drop source hij, List.zipIdx_append, hlength]

/-- Without what they put in, edits leave the bytes that none of them covers. -/
theorem patch_map_blank (h : Ordered offset source.length edits) :
    patch source offset (edits.map blank) =
      (((source.drop offset).zipIdx offset).filter fun b => ! covered edits b.2).map (·.1) := by
  induction edits generalizing offset with
  | nil => simp [patch, covered]
  | cons e rest ih =>
    have hstop := h.2.1
    have hlen := h.2.2.le
    -- Before the edit all bytes stay, in its range none, and behind it those the others leave.
    have hbefore : ((source.slice offset e.start).zipIdx offset).filter
        (fun b => ! covered (e :: rest) b.2) = (source.slice offset e.start).zipIdx offset := by
      refine List.filter_eq_self.2 fun b hb => ?_
      rw [covered_of_ordered h, if_pos (mem_zipIdx_slice hb).2, Bool.not_false]
    have hin : ((source.slice e.start e.stop).zipIdx e.start).filter
        (fun b => ! covered (e :: rest) b.2) = [] := by
      refine List.filter_eq_nil_iff.2 fun b hb => ?_
      obtain ⟨hle, hlt⟩ := mem_zipIdx_slice hb
      rw [covered_of_ordered h, if_neg (Nat.not_lt.2 hle), if_pos hlt, Bool.not_true]
      exact Bool.false_ne_true
    have hbehind : ((source.drop e.stop).zipIdx e.stop).filter (fun b => ! covered (e :: rest) b.2) =
        ((source.drop e.stop).zipIdx e.stop).filter fun b => ! covered rest b.2 := by
      refine List.filter_congr fun b hb => ?_
      have hle := (List.mem_zipIdx hb).1
      rw [covered_of_ordered h, if_neg (by omega), if_neg (by omega)]
    calc patch source offset ((e :: rest).map blank)
        = source.slice offset e.start ++ patch source e.stop (rest.map blank) := by
          simp [patch, blank]
      _ = _ := by
          rw [ih h.2.2, zipIdx_drop h.1 (hstop.trans hlen), zipIdx_drop hstop hlen,
            List.filter_append, List.filter_append, hbefore, hin, hbehind, List.nil_append,
            List.map_append, List.zipIdx_map_fst]

theorem spliceAll_deletions (h : Ordered 0 source.length merged)
    (hdel : ∀ e ∈ merged, e.isDeletion = true) :
    spliceAll source merged = uncovered source merged := by
  have hblank : merged.map blank = merged :=
    (List.map_congr_left fun e he => blank_of_isDeletion (hdel e he)).trans (List.map_id merged)
  rw [spliceAll_eq h, ← hblank, patch_map_blank h, hblank]
  rfl

theorem uncovered_congr (h : ∀ i, covered edits i = covered edits' i) :
    uncovered source edits = uncovered source edits' := by
  simp only [uncovered, h]

/-- Deletions merge. -/
theorem exists_merge_deletions (hdel : ∀ e ∈ edits, e.isDeletion = true) :
    ∃ merged, merge edits = .ok merged ∧ ∀ e ∈ merged, e.isDeletion = true := by
  have hsorted : ∀ e ∈ edits.mergeSort le, e.isDeletion = true := fun e he =>
    hdel e (List.mem_mergeSort.1 he)
  obtain ⟨merged, hm⟩ := exists_merge edits (List.pairwise_of_forall_mem_list
    fun a ha b hb _ => ⟨hsorted a ha, .inl (hsorted b hb)⟩)
  exact ⟨merged, hm, forall_merge (fun a b _ _ _ _ => isDeletion_cover a b) hdel hm⟩

/-- Applying edits is one splice: if they have no conflict, the source with the survivors in place,
which keeps the bytes that no edit covers; and deletions have no conflict and leave these bytes. -/
theorem apply_splices (source : Bytes) (edits : List Edit)
    (h : ∀ e ∈ edits, e.FitsIn source.length) :
    (∀ text, apply source edits = .ok text → ∃ survivors, Ordered 0 source.length survivors ∧
      Survive edits survivors ∧ text = patch source 0 survivors ∧
      patch source 0 (survivors.map blank) = uncovered source edits) ∧
    ((∀ e ∈ edits, e.isDeletion = true) → apply source edits = .ok (uncovered source edits)) := by
  constructor
  · intro text htext
    obtain ⟨survivors, hm, rfl⟩ := apply_eq_ok htext
    have hordered := ordered_merge h hm
    have hsurvive := survive_of_merge hm
    refine ⟨survivors, hordered, hsurvive, spliceAll_eq hordered, ?_⟩
    rw [patch_map_blank hordered, ← uncovered_congr hsurvive.covered_eq]
    rfl
  · intro hdel
    obtain ⟨merged, hm, hdel'⟩ := exists_merge_deletions hdel
    have hsurvive := survive_of_merge hm
    rw [apply, hm, Except.map, spliceAll_deletions (ordered_merge h hm) hdel',
      uncovered_congr hsurvive.covered_eq]

end Splice

instance (n : Nat) (e : Edit) : Decidable (FitsIn n e) :=
  inferInstanceAs (Decidable (e.start ≤ e.stop ∧ e.stop ≤ n))

namespace Overlapping

/-- Two deletions that overlap, with an edit inside, one at their end and one apart. -/
def source : Bytes := Utf8.encode "0123456789"

def deletions : List Edit := [⟨2, 5, []⟩, ⟨0, 3, []⟩]

def edits : List Edit :=
  ⟨7, 8, Utf8.encode "z"⟩ :: ⟨5, 5, Utf8.encode "y"⟩ :: ⟨3, 4, Utf8.encode "x"⟩ :: deletions

theorem fitsIn : ∀ e ∈ edits, e.FitsIn source.length := by decide +kernel

theorem apply_eq : apply source edits = .ok (Utf8.encode "y56z89") := by cbv

end Overlapping

open Overlapping in
theorem apply_splices_sample :
    (∃ survivors, Ordered 0 source.length survivors ∧ Survive edits survivors ∧
      Utf8.encode "y56z89" = patch source 0 survivors ∧
      patch source 0 (survivors.map blank) = uncovered source edits) ∧
    apply source deletions = .ok (uncovered source deletions) :=
  ⟨(apply_splices source edits fitsIn).1 _ apply_eq,
    (apply_splices source deletions fun e he => fitsIn e (by simp [edits, he])).2 (by decide)⟩

end Deadwood.Edit
