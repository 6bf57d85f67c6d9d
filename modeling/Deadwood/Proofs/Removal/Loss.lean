import Deadwood.Proofs.Removal.Report
import Deadwood.Proofs.Removal.Tally

/-!
What a plan takes away. A replacement puts in blanks, commas and braces only, and each edit loses a
name, so of all other bytes less is left than there was (`weight_lt_of_apply`).
-/
namespace Deadwood

namespace Bytes

/-- Blanks, commas and braces. -/
def isFiller (b : UInt8) : Bool := b == 32 || b == 44 || b == 123 || b == 125

/-- How many bytes are no filler. -/
def weight (bytes : Bytes) : Nat := bytes.countP fun b => ! isFiller b

theorem weight_append (bytes bytes' : Bytes) :
    weight (bytes ++ bytes') = weight bytes + weight bytes' := List.countP_append

variable {i j k : Nat}

theorem weight_slice_add_slice (source : Bytes) (hij : i ≤ j) (hjk : j ≤ k) :
    weight (source.slice i j) + weight (source.slice j k) = weight (source.slice i k) :=
  countP_slice_add_slice _ source hij hjk

theorem weight_slice_le (source : Bytes) {i' j' : Nat} (hi : i ≤ i') (hle : i' ≤ j')
    (hj : j' ≤ j) : weight (source.slice i' j') ≤ weight (source.slice i j) :=
  countP_slice_le _ source hi hle hj

end Bytes

open Bytes (weight weight_append weight_slice_add_slice weight_slice_le)

theorem weight_mark {text : String} (h : text ∈ ["\x7b ", " \x7d", ", "]) :
    weight (Utf8.encode text) = 0 := by
  simp only [List.mem_cons, List.not_mem_nil, or_false] at h
  rcases h with rfl | rfl | rfl <;> decide +kernel

namespace Assembles

variable {source bytes : Bytes} {first last : Nat} {slices : List Range} {n : Node}

theorem weight_le (h : Assembles source first last slices bytes) :
    weight bytes ≤ weight (source.slice first last) :=
  h.countP_le fun _ => weight_mark

/-- What no slice copies is missed. -/
theorem weight_add_le (h : Assembles source first last slices bytes) (hle : n.start ≤ n.stop)
    (hstart : first ≤ n.start) (hstop : n.stop ≤ last) (havoids : ∀ r ∈ slices, Plan.Avoids n r) :
    weight bytes + weight (n.bytes source) ≤ weight (source.slice first last) := by
  induction h with
  | nil =>
    have hin := weight_slice_le source hstart hle hstop
    simpa [weight, Node.bytes] using hin
  | mark htext _ ih =>
    rw [weight_append, weight_mark htext, Nat.zero_add]
    exact ih hstart hstop havoids
  | @slice first last _ _ r hr hrle hrest ih =>
    rw [List.forall_mem_cons] at havoids
    rw [weight_append, ← weight_slice_add_slice source (hr.trans hrle) hrest.le,
      ← weight_slice_add_slice source hr hrle]
    -- The node lies in the gap before the first slice or somewhere behind it.
    rcases havoids.1 with hbefore | hafter
    · have hgap := weight_slice_le source hstart hle hbefore
      have htail := hrest.weight_le
      unfold Node.bytes
      omega
    · have htail := ih hafter hstop havoids.2
      omega

end Assembles

namespace Edit

variable {source : Bytes} {a e : Edit} {edits merged : List Edit}

/-- The edit takes more than it puts in, fillers apart. -/
def Lightens (source : Bytes) (e : Edit) : Prop :=
  weight e.replacement < weight (source.slice e.start e.stop)

theorem Lightens.sheds (h : Lightens source e) :
    Sheds (fun b => ! Bytes.isFiller b) 1 source e := h

theorem Merges.ne_nil (h : Merges a edits merged) : merged ≠ [] := by
  induction h with
  | last => exact List.cons_ne_nil _ _
  | swallow _ _ _ _ ih => exact ih
  | join _ _ _ _ _ ih => exact ih
  | next => exact List.cons_ne_nil _ _

theorem ne_nil_of_merge (hne : edits ≠ []) (h : merge edits = .ok merged) : merged ≠ [] := by
  rcases merge_cases h with ⟨hnil, -⟩ | ⟨_, _, -, -, hm⟩
  · exact absurd hnil hne
  · exact hm.ne_nil

end Edit

namespace Plan

variable {t : Targets} {source : Bytes} {tree : Node} {p : Place} {c : Change} {e : Edit}

/-- What symbols and methods are called. -/
def namesOf (source : Bytes) (tree : Node) : List Node :=
  (Symbol.definitionsOf source tree).map (·.1.node) ++ tree.methodKeys

/-- No name is made of fillers. -/
def Spelled (source : Bytes) (tree : Node) : Prop :=
  ∀ n ∈ namesOf source tree, 0 < weight (n.bytes source)

instance (source : Bytes) (tree : Node) : Decidable (Spelled source tree) :=
  inferInstanceAs (Decidable (∀ n ∈ namesOf source tree, _))

theorem Form.lightens (h : Form t source p c) (hw : WellFormed source tree)
    (hg : Grammatical tree) (hc : OnCharacters source tree) (hs : Spelled source tree)
    (hp : Place.Of tree p) (he : e ∈ c.edits) : e.Lightens source := by
  have hle := (h.start_lt_edit hw hg hp he).le
  by_cases hk : p.node.kind = .method
  · -- The key goes with the method, a symbol or not.
    cases h with
    | nothing => cases he
    | function hk' | importStatement hk' | clause hk' | declaration hk' | list hk'
    | patterns hk' => simp [hk] at hk'
    | @method name _ hclass hname =>
      rw [List.mem_singleton] at he
      subst he
      have hmem := Place.mem_children_of_child? hname
      have hin := hp.covers_children hw.isLaidOut hmem
      have hcovers := (IsTarget.method hk hclass).deletion_covers hw hp
      have hkey : p.node.child? "name" = some name.node := by
        rw [← Place.child?_node, hname, Option.map_some]
      have hspelled : 0 < weight (name.node.bytes source) :=
        hs _ (List.mem_append_right _ (mem_methodKeys hp hk hkey))
      exact hspelled.trans_le (weight_slice_le source (hcovers.1.trans hin.1)
        ((hp.of_mem_children hmem).start_le_stop hw.isLaidOut) (hin.2.trans hcovers.2))
  · obtain ⟨b, hb, hstart, hstop⟩ := h.exists_atStake hw hp hk he
    obtain ⟨slices, hslices, havoids⟩ := h.exists_slices hw hc hp he
    obtain ⟨hbof, -, hdef, -⟩ := atStake_of_tree hp hb
    have hspelled : 0 < weight (b.1.node.bytes source) :=
      hs _ (List.mem_append_left _ (List.mem_map_of_mem (f := fun b => b.1.node) hdef))
    have hlost := hslices.weight_add_le (hbof.start_le_stop hw.isLaidOut) hstart hstop
      fun r hr => havoids r hr b hb
    unfold Edit.Lightens
    omega

/-- A text from which a plan takes something is lighter. -/
theorem weight_lt_of_apply {plan : Plan} {text : Bytes} (hw : WellFormed source tree)
    (hg : Grammatical tree) (hc : OnCharacters source tree) (hs : Spelled source tree)
    (h : ofTree t source tree = .ok plan) (hne : plan.edits ≠ [])
    (happly : Edit.apply source plan.edits = .ok text) : weight text < weight source := by
  obtain ⟨steps, rfl, hsteps⟩ := exists_steps h
  have hedits : (Step.run {} steps).plan.edits = steps.flatMap (·.2.edits) := by
    rw [Step.edits_run, List.nil_append]
  rw [hedits] at hne happly
  obtain ⟨merged, hmerged, hcount⟩ := Edit.countP_le_of_apply happly (hsteps.fitsIn hw)
    fun e he => by
      obtain ⟨x, hx, he⟩ := List.mem_flatMap.1 he
      exact ((form_of_change (hsteps.change_eq x hx)).lightens hw hg hc hs
        (hsteps.of_tree x hx) he).sheds
  have hpos : 0 < merged.length := List.length_pos_iff.2 (Edit.ne_nil_of_merge hne hmerged)
  unfold weight
  omega

end Plan

end Deadwood
