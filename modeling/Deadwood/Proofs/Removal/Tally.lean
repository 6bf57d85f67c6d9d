import Deadwood.Proofs.Removal.Assembly
import Deadwood.Proofs.Removal.Edit

/-!
Counting bytes of one sort through a plan. A replacement assembled from the source holds no more of
them than what it replaces, if punctuation holds none, and where each edit takes more than it puts
in, so does the whole (`countP_le_of_apply`).
-/
namespace Deadwood

variable {P : UInt8 → Bool} {source : Bytes}

/-- Slices in their order hold no more than the stretch they are cut from. -/
theorem Assembles.countP_le {first last : Nat} {slices : List Range} {bytes : Bytes}
    (hmark : ∀ text ∈ ["\x7b ", " \x7d", ", "], (Utf8.encode text).countP P = 0)
    (h : Assembles source first last slices bytes) :
    bytes.countP P ≤ (source.slice first last).countP P := by
  induction h with
  | nil => exact Nat.zero_le _
  | mark htext _ ih => rwa [List.countP_append, hmark _ htext, Nat.zero_add]
  | @slice first last _ _ r hstart hle hrest ih =>
    have hin := Bytes.countP_slice_le P source hstart (hle.trans hrest.le) le_rfl
    rw [← Bytes.countP_slice_add_slice P source hle hrest.le] at hin
    rw [List.countP_append]
    omega

namespace Edit

variable {k : Nat} {a b : Edit} {edits merged : List Edit}

/-- The edit takes at least `k` bytes of the sort more than it puts in. -/
def Sheds (P : UInt8 → Bool) (k : Nat) (source : Bytes) (e : Edit) : Prop :=
  e.replacement.countP P + k ≤ (source.slice e.start e.stop).countP P

theorem Sheds.cover (ha : Sheds P k source a) (hle : a.start ≤ a.stop) :
    Sheds P k source (cover a b) := by
  have hin := Bytes.countP_slice_le P source le_rfl hle (le_max_left a.stop b.stop)
  simp only [Sheds, Edit.cover, List.countP_nil] at ha ⊢
  omega

theorem countP_patch_le {offset : Nat} (h : Ordered offset source.length merged)
    (hsheds : ∀ e ∈ merged, Sheds P k source e) :
    (patch source offset merged).countP P + k * merged.length ≤
      (source.drop offset).countP P := by
  induction merged generalizing offset with
  | nil => exact le_rfl
  | cons e rest ih =>
    rw [List.forall_mem_cons] at hsheds
    have hrest := ih h.2.2 hsheds.2
    have he : e.replacement.countP P + k ≤ (source.slice e.start e.stop).countP P := hsheds.1
    rw [patch, ← Bytes.slice_append_drop source h.1, ← Bytes.slice_append_drop source h.2.1]
    simp only [List.countP_append, List.length_cons, Nat.mul_succ]
    omega

/-- What every edit sheds, the edited text has shed once for each merged edit. -/
theorem countP_le_of_apply {text : Bytes} (h : apply source edits = .ok text)
    (hfits : ∀ e ∈ edits, e.FitsIn source.length) (hsheds : ∀ e ∈ edits, Sheds P k source e) :
    ∃ merged, merge edits = .ok merged ∧
      text.countP P + k * merged.length ≤ source.countP P := by
  obtain ⟨merged, hmerged, rfl⟩ := apply_eq_ok h
  have hordered := ordered_merge hfits hmerged
  have hall : ∀ e ∈ merged, Sheds P k source e ∧ e.start ≤ e.stop :=
    forall_merge (fun a b ha _ _ _ => ⟨ha.1.cover ha.2, ha.2.trans (le_max_left _ _)⟩)
      (fun e he => ⟨hsheds e he, (hfits e he).1⟩) hmerged
  have hcount := countP_patch_le hordered fun e he => (hall e he).1
  rw [← spliceAll_eq hordered, List.drop_zero] at hcount
  exact ⟨merged, hmerged, hcount⟩

end Edit

end Deadwood
