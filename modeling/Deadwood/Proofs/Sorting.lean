import Mathlib.Data.List.Nodup
import Mathlib.Data.List.Pairwise
import Mathlib.Order.Lattice
import Mathlib.Order.Std

/-!
Lists sorted by a key. If no two members share their key, the sorted list depends only on which
members there are (`mergeSort_eq_of_perm`).
-/
namespace Deadwood

section Key

variable {α κ : Type} [Ord κ] [Std.TransOrd κ] (key : α → κ)

theorem pairwise_mergeSort_key (l : List α) :
    (l.mergeSort fun a b => (compare (key a) (key b)).isLE).Pairwise fun a b =>
      (compare (key a) (key b)).isLE = true := by
  refine List.pairwise_mergeSort (fun a b c hab hbc => ?_) (fun a b => ?_) l
  · exact Std.TransOrd.isLE_trans hab hbc
  · rw [Std.OrientedOrd.eq_swap (a := key b)]
    cases compare (key a) (key b) <;> rfl

theorem mergeSort_eq_of_perm [Std.LawfulEqOrd κ] {l l' : List α} (h : l.Perm l')
    (hkeys : (l.map key).Nodup) :
    (l.mergeSort fun a b => (compare (key a) (key b)).isLE) =
      l'.mergeSort fun a b => (compare (key a) (key b)).isLE := by
  have hperm : (l.mergeSort fun a b => (compare (key a) (key b)).isLE).Perm
      (l'.mergeSort fun a b => (compare (key a) (key b)).isLE) :=
    (List.mergeSort_perm l _).trans (h.trans (List.mergeSort_perm l' _).symm)
  refine hperm.eq_of_pairwise (fun a b ha hb hab hba => ?_) (pairwise_mergeSort_key key l)
    (pairwise_mergeSort_key key l')
  have hsame : key a = key b :=
    Std.LawfulEqOrd.eq_of_compare (Std.OrientedCmp.isLE_antisymm hab hba)
  exact List.inj_on_of_nodup_map hkeys (List.mem_mergeSort.1 ha)
    (h.mem_iff.2 (List.mem_mergeSort.1 hb)) hsame

end Key

section LinearKey

variable {α κ : Type} [LinearOrder κ] {key : α → κ} {le : α → α → Bool} {a b : α} {l l' : List α}

theorem isLE_compare_iff (a b : κ) : (compare a b).isLE = true ↔ a ≤ b :=
  Std.LawfulBCmp.isLE_iff_le

variable (hle : ∀ a b, le a b = true ↔ key a ≤ key b)

include hle

theorem le_trans_of_key (a b c : α) (hab : le a b = true) (hbc : le b c = true) : le a c = true :=
  (hle a c).2 (((hle a b).1 hab).trans ((hle b c).1 hbc))

theorem le_total_of_key (a b : α) : (le a b || le b a) = true := by
  rw [Bool.or_eq_true, hle, hle]
  exact le_total _ _

theorem pairwise_mergeSort_of_key (l : List α) :
    (l.mergeSort le).Pairwise fun a b => key a ≤ key b :=
  (List.pairwise_mergeSort (le_trans_of_key hle) (le_total_of_key hle) l).imp (hle _ _).1

/-- Sorting leaves a least member at the head. -/
theorem mergeSort_cons_of_least (h : ∀ b ∈ l, key a ≤ key b) :
    (a :: l).mergeSort le = a :: l.mergeSort le := by
  obtain ⟨before, after, hcons, hl, hbefore⟩ :=
    List.mergeSort_cons (le_trans_of_key hle) (le_total_of_key hle) a l
  cases before with
  | nil =>
    rw [hcons, hl]
    rfl
  | cons b before =>
    have hb : b ∈ l.mergeSort le := by
      rw [hl]
      exact List.mem_cons_self
    have hlt := hbefore b List.mem_cons_self
    rw [(hle a b).2 (h b (List.mem_mergeSort.1 hb))] at hlt
    cases hlt

/-- Sorting leaves two members with one key as they stand. -/
theorem sublist_mergeSort_of_key_eq (hab : key a = key b) (h : [a, b].Sublist l) :
    [a, b].Sublist (l.mergeSort le) :=
  List.pair_sublist_mergeSort (le_trans_of_key hle) (le_total_of_key hle)
    ((hle a b).2 hab.le) h

/-- Sorting leaves the members with one key in the order they stand in. -/
theorem filter_mergeSort_of_key (k : κ) (l : List α) :
    (l.mergeSort le).filter (key · = k) = l.filter (key · = k) := by
  have hkey : ∀ {a : α}, a ∈ l.filter (key · = k) → key a = k := fun h => by
    simpa using (List.mem_filter.1 h).2
  have hpairwise : (l.filter (key · = k)).Pairwise fun a b => le a b = true :=
    List.pairwise_of_forall_mem_list fun a ha b hb => (hle a b).2 ((hkey ha).trans_le (hkey hb).ge)
  have hsublist : (l.filter (key · = k)).Sublist (l.mergeSort le) :=
    List.sublist_mergeSort (le_trans_of_key hle) (le_total_of_key hle) hpairwise
      List.filter_sublist
  have hfiltered := hsublist.filter (key · = k)
  rw [List.filter_filter] at hfiltered
  simp only [Bool.and_self] at hfiltered
  exact (hfiltered.eq_of_length ((List.mergeSort_perm l le).filter _).length_eq.symm).symm

end LinearKey

end Deadwood
