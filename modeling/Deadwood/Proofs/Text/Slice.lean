import Deadwood.Bytes
import Mathlib.Data.List.Basic
import Mathlib.Data.List.TakeDrop

/-!
Slices of a byte string: how they join, how they are cut and which bytes they hold.
-/
namespace Deadwood.Bytes

variable {source : Bytes} {i j k : Nat}

theorem slice_zero (source : Bytes) (i : Nat) : source.slice 0 i = source.take i := rfl

theorem slice_length (source : Bytes) (i : Nat) : source.slice i source.length = source.drop i := by
  simp [slice]

theorem slice_eq_nil (h : j ≤ i) : source.slice i j = [] := by
  rw [slice, List.drop_eq_nil_iff, List.length_take]
  omega

theorem slice_self (source : Bytes) (i : Nat) : source.slice i i = [] := slice_eq_nil (Nat.le_refl i)

theorem slice_append_slice (source : Bytes) (hij : i ≤ j) (hjk : j ≤ k) :
    source.slice i j ++ source.slice j k = source.slice i k := by
  have h : source.take j = (source.take k).take j := by rw [List.take_take, Nat.min_eq_left hjk]
  rw [slice, slice, slice, h, ← List.drop_take_append_drop (source.take k) i (j - i),
    List.drop_take, Nat.add_sub_cancel' hij]

theorem take_append_slice (source : Bytes) (hij : i ≤ j) :
    source.take i ++ source.slice i j = source.take j := by
  rw [← slice_zero, ← slice_zero, slice_append_slice source (Nat.zero_le i) hij]

theorem slice_append_drop (source : Bytes) (hij : i ≤ j) :
    source.slice i j ++ source.drop j = source.drop i := by
  by_cases hj : j ≤ source.length
  · rw [← slice_length, ← slice_length, slice_append_slice source hij hj]
  · rw [List.drop_eq_nil_of_le (by omega), List.append_nil, slice,
      List.take_of_length_le (by omega)]

theorem take_slice (source : Bytes) (hjk : j ≤ k) :
    (source.slice i k).take (j - i) = source.slice i j := by
  rw [slice, slice, ← List.drop_take, List.take_take, Nat.min_eq_left hjk]

theorem drop_slice (source : Bytes) (hij : i ≤ j) :
    (source.slice i k).drop (j - i) = source.slice j k := by
  rw [slice, slice, List.drop_drop, Nat.add_sub_cancel' hij]

theorem slice_take (source : Bytes) (hjk : j ≤ k) :
    slice (source.take k) i j = source.slice i j := by
  rw [slice, slice, List.take_take, Nat.min_eq_left hjk]

theorem slice_of_drop_eq {a rest : Bytes} (h : source.drop i = a ++ rest) :
    source.slice i (i + a.length) = a := by
  rw [slice, List.drop_take, h, Nat.add_sub_cancel_left, List.take_left]

theorem getElem?_slice (source : Bytes) (i j n : Nat) :
    (source.slice i j)[n]? = if i + n < j then source[i + n]? else none := by
  rw [slice, List.getElem?_drop, List.getElem?_take]

theorem mem_slice {b : UInt8} :
    b ∈ source.slice i j ↔ ∃ n, i ≤ n ∧ n < j ∧ source[n]? = some b := by
  rw [List.mem_iff_getElem?]
  simp only [getElem?_slice]
  constructor
  · rintro ⟨n, hn⟩
    split at hn
    · exact ⟨i + n, by omega, by assumption, hn⟩
    · cases hn
  · rintro ⟨n, hi, hj, hn⟩
    exact ⟨n - i, by rw [Nat.add_sub_cancel' hi, if_pos hj, hn]⟩

theorem slice_subset {i' j' : Nat} (hi : i ≤ i') (hj : j' ≤ j) :
    source.slice i' j' ⊆ source.slice i j := by
  intro b hb
  obtain ⟨n, hn, hn', hget⟩ := mem_slice.1 hb
  exact mem_slice.2 ⟨n, Nat.le_trans hi hn, Nat.lt_of_lt_of_le hn' hj, hget⟩

/-- What is counted in two slices side by side is counted in their union. -/
theorem countP_slice_add_slice (P : UInt8 → Bool) (source : Bytes) (hij : i ≤ j) (hjk : j ≤ k) :
    (source.slice i j).countP P + (source.slice j k).countP P = (source.slice i k).countP P := by
  rw [← List.countP_append, slice_append_slice source hij hjk]

theorem countP_slice_le (P : UInt8 → Bool) (source : Bytes) {i' j' : Nat} (hi : i ≤ i')
    (hle : i' ≤ j') (hj : j' ≤ j) :
    (source.slice i' j').countP P ≤ (source.slice i j).countP P := by
  rw [← countP_slice_add_slice P source hi (Nat.le_trans hle hj),
    ← countP_slice_add_slice P source hle hj]
  omega

theorem exists_mem_slice (hij : i < j) (hi : i < source.length) : ∃ b, b ∈ source.slice i j :=
  ⟨source[i], mem_slice.2 ⟨i, Nat.le_refl i, hij, List.getElem?_eq_getElem hi⟩⟩

end Deadwood.Bytes
