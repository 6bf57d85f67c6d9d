import Deadwood.Proofs.Removal.Generate

/-!
What edits spare. A deletion takes its target and, next to it, comments and at most one semicolon;
whatever else it takes is no part of a token. Any other edit takes an import clause, an object
pattern or a list of declarators. So the other tokens stand in the edited text as they stood in the
source (`deletions_spare_code`).
-/
namespace Deadwood

/-- No comment, and not inside one. -/
def Place.isCode (q : Place) : Bool := (q.node :: q.ancestors).all (·.type ≠ "comment")

namespace Plan

/-- A deletion: the place it is for, what it is to delete and whether a semicolon goes along. -/
structure Removal where
  place : Place
  target : Place
  withSemicolon : Bool

namespace Removal

def edit (source : Bytes) (r : Removal) : Edit := deletion source r.target r.withSemicolon

/-- Whether a place lies in the target or in the semicolon after it. -/
def takes (r : Removal) (q : Place) : Bool :=
  decide (r.target.address <:+ q.address) ||
    (r.withSemicolon && r.target.next?.any fun s =>
      s.node.type = ";" && decide (s.address <:+ q.address))

/-- A removal covers its target, and what it touches of other tokens goes along: they belong to a
comment next to the target or to the semicolon after it. -/
structure Spares (source : Bytes) (tree : Node) (r : Removal) : Prop where
  of_tree : Place.Of tree r.place
  isTarget : IsTarget r.place r.target r.withSemicolon
  start_le : (r.edit source).start ≤ r.target.node.start
  le_stop : r.target.node.stop ≤ (r.edit source).stop
  token : ∀ q, Place.Of tree q → q.node.isLeaf = true → ∀ i, q.node.start ≤ i → i < q.node.stop →
    (r.edit source).start ≤ i → i < (r.edit source).stop →
    ∃ s, Range.GoesAlong r.target r.withSemicolon s ∧ s.address <:+ q.address

end Removal

/-- A token that is no comment, not deleted and not in a part that is rebuilt. -/
def survives (removals : List Removal) (parts : List Part) (q : Place) : Bool :=
  q.node.isLeaf && ! q.node.isEmpty && q.isCode && ! removals.any (·.takes q) &&
    ! parts.any (·.covers q)

def survivors (removals : List Removal) (parts : List Part) (tree : Node) : List Place :=
  (Place.preorder tree).filter (survives removals parts)

variable {t : Targets} {source : Bytes} {tree : Node} {p q target : Place} {c : Change}

theorem RebuildsIn.isDeletion_eq_false {e : Edit} {core : Place}
    (h : RebuildsIn source tree p c e core) : e.isDeletion = false := by
  obtain ⟨text, htext, hne⟩ := h.replacement
  rw [← Bool.not_eq_true, Edit.isDeletion_iff, htext, Utf8.encode_eq_nil]
  exact hne

/-- A token outside or below a row of siblings. -/
theorem RebuildsIn.outside_or_inside {e : Edit} {core : Place}
    (h : RebuildsIn source tree p c e core) (hw : WellFormed source tree) (hq : Place.Of tree q)
    (hleaf : q.node.isLeaf = true) :
    q.node.stop ≤ e.start ∨ e.stop ≤ q.node.start ∨
      (e.start ≤ q.node.start ∧ q.node.stop ≤ e.stop) := by
  obtain ⟨r, i, j, first, last, hr, hi, hj, hstart, hstop⟩ := h.siblings
  have hnot : ¬ q.address <:+ r.address := by
    intro hsuffix
    obtain rfl := hq.eq_of_isLeaf hr hleaf hsuffix
    rw [Node.isLeaf, List.isEmpty_iff] at hleaf
    simp [hleaf] at hi
  rcases hr.outside_or_below hq hw.isLaidOut hnot hi hj with h | h | ⟨k, n, hik, hkj, hk, hbelow⟩
  · exact .inl (hstart ▸ h)
  · exact .inr (.inl (hstop ▸ h))
  · have hin := hq.within (hr.child hk) hw.isLaidOut hbelow
    have hfirst := (hr.children_ordered hw.isLaidOut hik hi hk).1
    have hlast := (hr.children_ordered hw.isLaidOut hkj hk hj).2
    rw [hstart, hstop]
    exact .inr (.inr ⟨hfirst.trans hin.1, hin.2.trans hlast⟩)

/-- A nonempty token lies outside a deletion or in what goes along. -/
theorem IsTarget.outside_or_along {withSemicolon : Bool} (h : IsTarget p target withSemicolon)
    (hw : WellFormed source tree) (hp : Place.Of tree p) (hq : Place.Of tree q)
    (hleaf : q.node.isLeaf = true) (hne : q.node.start < q.node.stop) :
    q.node.stop ≤ (deletion source target withSemicolon).start ∨
      (deletion source target withSemicolon).stop ≤ q.node.start ∨
      ∃ s, Place.Of tree s ∧ Range.GoesAlong target withSemicolon s ∧ s.address <:+ q.address := by
  have hnot : ∀ r, target.parent? = some r → ¬ q.address <:+ r.address := by
    intro r hr hsuffix
    obtain ⟨hof, i, -, hi⟩ := Place.of_parent (h.of_tree hp) hr
    obtain rfl := hq.eq_of_isLeaf hof hleaf hsuffix
    rw [Node.isLeaf, List.isEmpty_iff] at hleaf
    simp [hleaf] at hi
  rcases Range.apart_or_below hw (h.of_tree hp) h.isListed hq hne hnot withSemicolon with
    h | h | ⟨s, hs, halong, hsuffix, -⟩
  · exact .inl h
  · exact .inr (.inl h)
  · exact .inr (.inr ⟨s, hs, halong, hsuffix⟩)

theorem IsTarget.spares {withSemicolon : Bool} (h : IsTarget p target withSemicolon)
    (hw : WellFormed source tree) (hp : Place.Of tree p) :
    Removal.Spares source tree ⟨p, target, withSemicolon⟩ where
  of_tree := hp
  isTarget := h
  start_le := (Range.covers hw (h.of_tree hp) h.isListed withSemicolon).1
  le_stop := (Range.covers hw (h.of_tree hp) h.isListed withSemicolon).2
  token q hq hleaf i hstart hstop hi hi' := by
    rcases h.outside_or_along hw hp hq hleaf (by omega) with hout | hout | ⟨s, -, hs⟩
    · simp only [Removal.edit] at hi
      omega
    · simp only [Removal.edit] at hi'
      omega
    · exact ⟨s, hs⟩

theorem not_isCode_of_comment {s : Place} (hq : Place.Of tree q) (hs : Place.Of tree s)
    (htype : s.node.type = "comment") (hsuffix : s.address <:+ q.address) : q.isCode = false := by
  rw [Place.isCode, ← Bool.not_eq_true, List.all_eq_true]
  intro hall
  have hne := hall s.node (hq.node_mem_of_suffix hs hsuffix)
  simp [htype] at hne

/-- What goes along is a comment or taken. -/
theorem Removal.takes_of_goesAlong {r : Removal} {s : Place} (hq : Place.Of tree q)
    (hs : Place.Of tree s) (h : Range.GoesAlong r.target r.withSemicolon s)
    (hsuffix : s.address <:+ q.address) : q.isCode = false ∨ r.takes q = true := by
  rcases h with rfl | ⟨-, htype⟩ | ⟨hsc, hnext, htype⟩
  · exact .inr (by simp [Removal.takes, hsuffix])
  · exact .inl (not_isCode_of_comment hq hs htype hsuffix)
  · exact .inr (by simp [Removal.takes, hsc, hnext, htype, hsuffix])

section Survivors

variable {removals : List Removal} {parts : List Part}

theorem survives_iff : survives removals parts q = true ↔
    q.node.isLeaf = true ∧ q.node.start ≠ q.node.stop ∧ q.isCode = true ∧
      (∀ r ∈ removals, r.takes q = false) ∧ ∀ r ∈ parts, r.covers q = false := by
  simp [survives, Node.isEmpty, and_assoc]

theorem mem_survivors : q ∈ survivors removals parts tree ↔
    Place.Of tree q ∧ survives removals parts q = true := by
  rw [survivors, List.mem_filter, Place.mem_preorder]

/-- Survivors come one after another. -/
theorem pairwise_survivors (hw : WellFormed source tree) :
    (survivors removals parts tree).Pairwise fun a b => a.node.stop ≤ b.node.start := by
  refine ((Place.pairwise_preorder tree).sublist List.filter_sublist).imp_of_mem ?_
  intro a b ha hb hab
  obtain ⟨hofa, hsa⟩ := mem_survivors.1 ha
  obtain ⟨hofb, -⟩ := mem_survivors.1 hb
  rcases hab with ⟨hsuffix, hne⟩ | hbefore
  · have heq := hofa.eq_of_isLeaf hofb (survives_iff.1 hsa).1 hsuffix
    exact absurd (congrArg Place.address heq).symm hne
  · exact hofa.stop_le_start hofb hw.isLaidOut hbefore

end Survivors

theorem exists_map_eq {α β : Type} {holds : α → Prop} {f : α → β} {l : List β}
    (h : ∀ b ∈ l, ∃ a, holds a ∧ f a = b) :
    ∃ as : List α, l = as.map f ∧ ∀ a ∈ as, holds a := by
  induction l with
  | nil => exact ⟨[], rfl, by simp⟩
  | cons b rest ih =>
    rw [List.forall_mem_cons] at h
    obtain ⟨a, ha, rfl⟩ := h.1
    obtain ⟨as, rfl, hall⟩ := ih h.2
    exact ⟨a :: as, rfl, List.forall_mem_cons.2 ⟨ha, hall⟩⟩

namespace Step.From

variable {s : Progress} {steps : List Step} {e : Edit}

/-- An edit of a plan deletes a target or rebuilds. -/
theorem edit_cases (h : From t source tree s steps) (hw : WellFormed source tree)
    (hg : Grammatical tree) (he : e ∈ steps.flatMap (·.2.edits)) :
    (∃ r : Removal, r.Spares source tree ∧ r.edit source = e) ∨
      e.isDeletion = false ∧ ∃ x ∈ steps, ∃ core, RebuildsIn source tree x.1 x.2 e core := by
  obtain ⟨x, hx, he⟩ := List.mem_flatMap.1 he
  have hof := h.of_tree x hx
  rcases (form_of_change (h.change_eq x hx)).edit_cases hw hg hof he with
    ⟨target, sc, ht, hedits, -⟩ | ⟨core, hcore⟩
  · rw [hedits, List.mem_singleton] at he
    exact .inl ⟨⟨x.1, target, sc⟩, ht.spares hw hof, he.symm⟩
  · exact .inr ⟨hcore.isDeletion_eq_false, x, hx, core, hcore⟩

/-- Every deletion of a plan is that of a removal. -/
theorem exists_removals (h : From t source tree s steps) (hw : WellFormed source tree)
    (hg : Grammatical tree) : ∃ removals : List Removal,
      (steps.flatMap (·.2.edits)).filter Edit.isDeletion = removals.map (Removal.edit source) ∧
      ∀ r ∈ removals, r.Spares source tree := by
  refine exists_map_eq fun e he => ?_
  obtain ⟨he, hdeletion⟩ := List.mem_filter.1 he
  rcases h.edit_cases hw hg he with hremoval | ⟨hno, -⟩
  · exact hremoval
  · rw [hdeletion] at hno
    cases hno

/-- Every other edit of a plan takes a part that is rebuilt. -/
theorem exists_parts (h : From t source tree s steps) (hw : WellFormed source tree)
    (hg : Grammatical tree) : ∃ parts : List Part,
      ((steps.flatMap (·.2.edits)).filter (! ·.isDeletion)).map Edit.range =
        parts.map Part.range ∧ ∀ r ∈ parts, r.IsRebuilt tree := by
  refine exists_map_eq fun range hrange => ?_
  obtain ⟨e, he, rfl⟩ := List.mem_map.1 hrange
  obtain ⟨he, hrebuilt⟩ := List.mem_filter.1 he
  rcases h.edit_cases hw hg he with ⟨r, -, rfl⟩ | ⟨-, x, -, core, hcore⟩
  · cases hrebuilt
  · exact hcore.part

/-- No edit touches what survives. -/
theorem outside_of_survives {removals : List Removal} {parts : List Part}
    (h : From t source tree s steps) (hw : WellFormed source tree) (hg : Grammatical tree)
    (hdeletions : (steps.flatMap (·.2.edits)).filter Edit.isDeletion =
      removals.map (Removal.edit source))
    (hall : ∀ r ∈ removals, r.Spares source tree)
    (hparts : ((steps.flatMap (·.2.edits)).filter (! ·.isDeletion)).map Edit.range =
      parts.map Part.range)
    (hq : Place.Of tree q) (hs : survives removals parts q = true) :
    ∀ e ∈ steps.flatMap (·.2.edits), q.node.stop ≤ e.start ∨ e.stop ≤ q.node.start := by
  obtain ⟨hleaf, hne, hcode, htakes, hcovers⟩ := survives_iff.1 hs
  have hle := hq.start_le_stop hw.isLaidOut
  -- A deletion spares the token because nothing that goes along is above it, any other edit
  -- because it takes a row of siblings that the token is not below.
  intro e he
  cases hdeletion : e.isDeletion with
  | true =>
    have hmem := List.mem_filter.2 ⟨he, hdeletion⟩
    rw [hdeletions, List.mem_map] at hmem
    obtain ⟨r, hr, rfl⟩ := hmem
    rcases (hall r hr).isTarget.outside_or_along hw (hall r hr).of_tree hq hleaf (by omega) with
      hout | hout | ⟨s, hs, halong, hsuffix⟩
    · exact .inl hout
    · exact .inr hout
    · rcases Removal.takes_of_goesAlong hq hs halong hsuffix with hcomment | htaken
      · rw [hcode] at hcomment
        cases hcomment
      · rw [htakes r hr] at htaken
        cases htaken
  | false =>
    have hmem : e.range ∈ parts.map Part.range :=
      hparts ▸ List.mem_map_of_mem (List.mem_filter.2 ⟨he, by simp [hdeletion]⟩)
    rw [List.mem_map] at hmem
    obtain ⟨r, hr, hrange⟩ := hmem
    rcases h.edit_cases hw hg he with ⟨r, -, rfl⟩ | ⟨-, x, -, core, hcore⟩
    · cases hdeletion
    · rcases hcore.outside_or_inside hw hq hleaf with hout | hout | hin
      · exact .inl hout
      · exact .inr hout
      · have hno := hcovers r hr
        rw [Part.covers, hrange, decide_eq_false_iff_not] at hno
        exact absurd hin hno

end Step.From

/-- Edits spare code: a deletion covers its target and otherwise only takes comments next to it, the
semicolon after a method and what is no token; any other edit takes the clause of an import, an
object pattern or a list of declarators; and the tokens outside of these stand in the edited text,
whole and in their order. -/
theorem deletions_spare_code (t : Targets) (source : Bytes) (tree : Node) (plan : Plan)
    (hw : WellFormed source tree) (hg : Grammatical tree)
    (hplan : ofTree t source tree = .ok plan) :
    ∃ removals parts text,
      plan.edits.filter Edit.isDeletion = removals.map (Removal.edit source) ∧
      (∀ r ∈ removals, r.Spares source tree) ∧
      (plan.edits.filter (! ·.isDeletion)).map Edit.range = parts.map Part.range ∧
      (∀ r ∈ parts, r.IsRebuilt tree) ∧ Edit.apply source plan.edits = .ok text ∧
      Edit.InOrder ((survivors removals parts tree).map (·.node.bytes source)) text := by
  obtain ⟨merged, hmerged, hordered, happly⟩ := exists_patch hw hg hplan
  obtain ⟨steps, rfl, hsteps⟩ := exists_steps hplan
  rw [Step.edits_run, List.nil_append] at hmerged happly ⊢
  obtain ⟨removals, hdeletions, hall⟩ := hsteps.exists_removals hw hg
  obtain ⟨parts, hparts, hrebuilt⟩ := hsteps.exists_parts hw hg
  refine ⟨removals, parts, _, hdeletions, hall, hparts, hrebuilt, happly, ?_⟩
  have hsurvivors : ∀ q ∈ survivors removals parts tree,
      q.node.start < q.node.stop ∧ q.node.stop ≤ source.length ∧
        ∀ e ∈ merged, q.node.stop ≤ e.start ∨ e.stop ≤ q.node.start := by
    intro q hq
    obtain ⟨hof, hs⟩ := mem_survivors.1 hq
    have hne := (survives_iff.1 hs).2.1
    have hle := hof.start_le_stop hw.isLaidOut
    refine ⟨by omega, hw.stop_le_length hof, Edit.forall_merge ?_
      (hsteps.outside_of_survives hw hg hdeletions hall hparts hof hs) hmerged⟩
    -- The cover of two deletions that overlap leaves no gap for a token.
    intro a b ha hb hab hlt
    simp only [Edit.cover]
    omega
  have hpatch := Edit.inOrder_patch
    ((survivors removals parts tree).map fun q => (q.node.start, q.node.stop)) hordered ?_ ?_ ?_
  · rw [List.map_map] at hpatch
    exact hpatch
  · intro r hr
    obtain ⟨q, hq, rfl⟩ := List.mem_map.1 hr
    exact ⟨Nat.zero_le _, (hsurvivors q hq).1.le, (hsurvivors q hq).2.1⟩
  · rw [List.pairwise_map]
    exact pairwise_survivors hw
  · intro r hr
    obtain ⟨q, hq, rfl⟩ := List.mem_map.1 hr
    exact (hsurvivors q hq).2.2

/-- The plan rebuilds the clause of an import and deletes a function with the comment above it. -/
theorem deletions_spare_code_sample :
    ∃ removals parts text, Sample.plan.edits.filter Edit.isDeletion =
      removals.map (Removal.edit Sample.source) ∧
      (∀ r ∈ removals, r.Spares Sample.source Sample.tree) ∧
      (Sample.plan.edits.filter (! ·.isDeletion)).map Edit.range = parts.map Part.range ∧
      (∀ r ∈ parts, r.IsRebuilt Sample.tree) ∧
      Edit.apply Sample.source Sample.plan.edits = .ok text ∧
      Edit.InOrder ((survivors removals parts Sample.tree).map (·.node.bytes Sample.source)) text :=
  deletions_spare_code Sample.targets Sample.source Sample.tree Sample.plan Sample.wellFormed
    Sample.grammatical Sample.ofTree_eq

end Plan

end Deadwood
