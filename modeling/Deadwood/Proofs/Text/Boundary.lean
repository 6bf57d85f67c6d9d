import Deadwood.Proofs.Text.Slice
import Deadwood.Proofs.Text.Utf8

/-!
Boundaries between the characters of a text. What lies between two of them is text, and an ASCII
byte has one on either side.
-/
namespace Deadwood.Utf8

variable {source : Bytes} {i j : Nat}

/-- The bytes before the offset are text. -/
def isBoundary (source : Bytes) (i : Nat) : Bool := isValid (source.take i)

theorem isBoundary_zero (source : Bytes) : isBoundary source 0 = true := rfl

theorem isValid_slice (hi : isBoundary source i = true) (hj : isBoundary source j = true) :
    isValid (source.slice i j) = true := by
  by_cases hij : i ≤ j
  · unfold isBoundary at hj
    rw [← Bytes.take_append_slice source hij] at hj
    exact isValid_of_append hj hi
  · rw [Bytes.slice_eq_nil (by omega)]
    exact isValid_nil

theorem isValid_drop (hs : isValid source = true) (hi : isBoundary source i = true) :
    isValid (source.drop i) = true := by
  rw [← List.take_append_drop i source] at hs
  exact isValid_of_append hs hi

theorem isValid_ascii {bytes : Bytes} (h : ∀ b ∈ bytes, b.toNat < 0x80) :
    isValid bytes = true := by
  induction bytes with
  | nil => exact isValid_nil
  | cons b rest ih =>
    rw [List.forall_mem_cons] at h
    have hb : isValid [b] = true := by
      refine isValid_iff.2 ⟨String.ofList [scalar b.toNat []], ?_⟩
      simp [encode, encodeChar_one h.1]
    exact isValid_append hb (ih h.2)

/-- ASCII bytes after a boundary lead to a boundary. -/
theorem isBoundary_of_ascii (hi : isBoundary source i = true) (hij : i ≤ j)
    (h : ∀ b ∈ source.slice i j, b.toNat < 0x80) : isBoundary source j = true := by
  rw [isBoundary, ← Bytes.take_append_slice source hij]
  exact isValid_append hi (isValid_ascii h)

/-- ASCII bytes before a boundary come after a boundary. -/
theorem isBoundary_of_ascii' (hj : isBoundary source j = true) (hij : i ≤ j)
    (h : ∀ b ∈ source.slice i j, b.toNat < 0x80) : isBoundary source i = true := by
  unfold isBoundary at hj
  rw [← Bytes.take_append_slice source hij] at hj
  cases hs : source.slice i j with
  | nil => rwa [hs, List.append_nil] at hj
  | cons b rest =>
    rw [hs] at hj h
    exact isValid_of_append_cons (h b List.mem_cons_self) hj

end Deadwood.Utf8
