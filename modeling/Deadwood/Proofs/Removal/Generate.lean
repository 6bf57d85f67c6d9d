import Deadwood.Proofs.Removal.Compatible

/-!
Every tree has a plan, and the edits of the plan give text: they are cut between characters, and
what they put in is text.
-/
namespace Deadwood.Plan

variable {t : Targets} {source : Bytes} {tree : Node} {p target : Place} {c : Change}

theorem IsTarget.deletion_fitsIn {withSemicolon : Bool} (h : IsTarget p target withSemicolon)
    (hw : WellFormed source tree) (hp : Place.Of tree p) :
    (deletion source target withSemicolon).FitsIn source.length :=
  Range.ofRemoval_fits hw (h.of_tree hp) h.isListed withSemicolon

theorem pattern_fitsIn {d : Place} {e : Edit} (hw : WellFormed source tree)
    (hp : Place.Of tree p) (hd : d ∈ declarators p)
    (he : (fate t source d).pattern? = some e) : e.FitsIn source.length := by
  have hof := hp.of_mem_children (mem_children_of_mem_declarators hd)
  have hform := form_fate t source (kind_of_mem_declarators hd)
  generalize fate t source d = f at he hform
  cases hform with
  | keep | name | pattern => cases he
  | rebuild hname =>
    cases he
    have hpof := hof.of_mem_children (Place.mem_children_of_child? hname)
    exact ⟨hpof.start_le_stop hw.isLaidOut, hw.stop_le_length hpof⟩

theorem Form.fitsIn (h : Form t source p c) (hw : WellFormed source tree)
    (hp : Place.Of tree p) {e : Edit} (he : e ∈ c.edits) : e.FitsIn source.length := by
  cases h with
  | nothing => cases he
  | function hk _ _ htarget | importStatement hk _ _ htarget | declaration hk _ _ _ htarget =>
    rw [List.mem_singleton.1 he]
    exact (IsTarget.statement (by simp [hk]) htarget).deletion_fitsIn hw hp
  | method hk hclass =>
    rw [List.mem_singleton.1 he]
    exact (IsTarget.method hk hclass).deletion_fitsIn hw hp
  | clause _ _ _ _ hclause =>
    rw [List.mem_singleton.1 he]
    have hof := hp.of_mem_children (Binding.mem_children_of_clause? hclause)
    exact ⟨hof.start_le_stop hw.isLaidOut, hw.stop_le_length hof⟩
  | list _ _ _ hnames hne =>
    rw [List.mem_singleton.1 he]
    have hsome : declarators p ≠ [] := by
      rintro hnone
      simp [hnames, fates, hnone] at hne
    obtain ⟨first, hfirst, last, hlast, hspan, hcovers⟩ :=
      declaratorSpan_covers t source hp hw.isLaidOut hsome
    have hof := hp.of_mem_children (mem_children_of_mem_declarators hfirst)
    have hof' := hp.of_mem_children (mem_children_of_mem_declarators hlast)
    rw [hspan]
    exact ⟨(hof.start_le_stop hw.isLaidOut).trans (hcovers first hfirst).2, hw.stop_le_length hof'⟩
  | patterns =>
    obtain ⟨f, hf, he⟩ := List.mem_filterMap.1 he
    obtain ⟨hd, hfate⟩ := mem_fates.1 hf
    exact pattern_fitsIn hw hp hd (hfate ▸ he)

theorem Step.From.fitsIn {s : Progress} {steps : List Step}
    (h : Step.From t source tree s steps) (hw : WellFormed source tree) :
    ∀ e ∈ steps.flatMap (·.2.edits), e.FitsIn source.length := by
  intro e he
  obtain ⟨x, hx, he⟩ := List.mem_flatMap.1 he
  exact (form_of_change (h.change_eq x hx)).fitsIn hw (h.of_tree x hx) he

/-- What a plan generates is the source with its merged edits, one after another. -/
theorem exists_patch (hw : WellFormed source tree) (hg : Grammatical tree) {plan : Plan}
    (h : ofTree t source tree = .ok plan) :
    ∃ merged, Edit.merge plan.edits = .ok merged ∧ Edit.Ordered 0 source.length merged ∧
      Edit.apply source plan.edits = .ok (Edit.patch source 0 merged) := by
  obtain ⟨text, htext⟩ := exists_apply hw hg h
  obtain ⟨steps, rfl, hsteps⟩ := exists_steps h
  obtain ⟨merged, hmerged, rfl⟩ := Edit.apply_eq_ok htext
  have hfits := hsteps.fitsIn hw
  rw [Step.edits_run, List.nil_append] at hmerged htext ⊢
  have hordered := Edit.ordered_merge hfits hmerged
  exact ⟨merged, hmerged, hordered, Edit.spliceAll_eq hordered ▸ htext⟩

/-- An edit cut between characters that puts in text. -/
def Textual (source : Bytes) (e : Edit) : Prop :=
  Utf8.isBoundary source e.start = true ∧ Utf8.isBoundary source e.stop = true ∧
    Utf8.isValid e.replacement = true

theorem Form.textual (h : Form t source p c) (hw : WellFormed source tree)
    (hg : Grammatical tree) (hc : OnCharacters source tree) (hp : Place.Of tree p) {e : Edit}
    (he : e ∈ c.edits) : Textual source e := by
  rcases h.edit_cases hw hg hp he with ⟨target, sc, ht, hedits, -⟩ | ⟨core, hcore⟩
  · rw [hedits, List.mem_singleton] at he
    subst he
    have hbounds := Range.isBoundary_ofRemoval hw hc (ht.of_tree hp) ht.isListed sc
    exact ⟨hbounds.1, hbounds.2, Utf8.isValid_nil⟩
  · obtain ⟨q, i, j, first, last, hq, hi, hj, hstart, hstop⟩ := hcore.siblings
    obtain ⟨text, htext, -⟩ := hcore.replacement
    exact ⟨hstart ▸ (hc first (hq.child hi).mem_nodes).1,
      hstop ▸ (hc last (hq.child hj).mem_nodes).2, htext ▸ Utf8.isValid_encode text⟩

theorem isValid_of_apply (hw : WellFormed source tree) (hg : Grammatical tree)
    (hc : OnCharacters source tree) (hs : Utf8.isValid source = true) {plan : Plan} {text : Bytes}
    (h : ofTree t source tree = .ok plan) (ha : Edit.apply source plan.edits = .ok text) :
    Utf8.isValid text = true := by
  obtain ⟨merged, hmerged, -, hpatch⟩ := exists_patch hw hg h
  rw [hpatch, Except.ok.injEq] at ha
  subst ha
  obtain ⟨steps, rfl, hsteps⟩ := exists_steps h
  refine Edit.isValid_patch hs (Utf8.isBoundary_zero source) ?_
  refine Edit.forall_merge (P := Textual source) ?_ ?_ hmerged
  · -- The cover of two deletions stops where one of them does.
    intro a b ha hb _ _
    refine ⟨ha.1, ?_, Utf8.isValid_nil⟩
    rcases max_choice a.stop b.stop with hmax | hmax
    · simp [Edit.cover, hmax, ha.2.1]
    · simp [Edit.cover, hmax, hb.2.1]
  · intro e he
    rw [Step.edits_run, List.nil_append] at he
    obtain ⟨x, hx, he⟩ := List.mem_flatMap.1 he
    exact (form_of_change (hsteps.change_eq x hx)).textual hw hg hc (hsteps.of_tree x hx) he

/-- A declarator with a new pattern is text. -/
theorem exists_keptText? (hw : WellFormed source tree) (hc : OnCharacters source tree)
    (hp : Place.Of tree p) {d : Place} (hd : d ∈ declarators p) :
    ∃ text, keptText? source d.node (fate t source d) = .ok text := by
  have hof := hp.of_mem_children (mem_children_of_mem_declarators hd)
  have hform := form_fate t source (kind_of_mem_declarators hd)
  generalize fate t source d = f at hform
  cases hform with
  | keep => exact ⟨_, rfl⟩
  | name | pattern => exact ⟨none, rfl⟩
  | @rebuild pattern removed kept hname =>
    have hchild := Place.mem_children_of_child? hname
    have hpof := hof.of_mem_children hchild
    have hin := hof.covers_children hw.isLaidOut hchild
    have hle := hpof.start_le_stop hw.isLaidOut
    have hd := hc _ hof.mem_nodes
    have hpattern := hc _ hpof.mem_nodes
    have hvalid : Utf8.isValid (rebuilt source d.node (replacementOf pattern.node
        (braced (kept.map (·.node.text source))))) = true := by
      rw [rebuilt_eq hin.1 hle hin.2]
      exact Utf8.isValid_append (Utf8.isValid_append (Utf8.isValid_slice hd.1 hpattern.1)
        (Utf8.isValid_encode _)) (Utf8.isValid_slice hpattern.2 hd.2)
    obtain ⟨text, htext⟩ := Utf8.exists_decode hvalid
    exact ⟨some text, by rw [keptText?, htext]; rfl⟩

theorem exists_change (t : Targets) (hw : WellFormed source tree) (hc : OnCharacters source tree)
    (hp : Place.Of tree p) : ∃ c, change t source p = .ok c := by
  unfold change
  split
  · exact ⟨_, rfl⟩
  · obtain ⟨kept, hkept⟩ : ∃ kept, keptTexts source (fates t source p) = .ok kept := by
      refine exists_keptTexts ?_
      intro f hf
      obtain ⟨hd, hfate⟩ := mem_fates.1 hf
      exact hfate ▸ exists_keptText? hw hc hp hd
    unfold changeVariables
    simp only [hkept, bind, Except.bind, pure, Except.pure]
    split
    · exact ⟨_, rfl⟩
    · split
      · exact ⟨_, rfl⟩
      · split
        · exact ⟨_, rfl⟩
        · exact ⟨_, rfl⟩
  · exact ⟨_, rfl⟩
  · exact ⟨_, rfl⟩
  · exact ⟨_, rfl⟩

theorem exists_plan (t : Targets) (hw : WellFormed source tree) (hc : OnCharacters source tree) :
    ∃ plan, ofTree t source tree = .ok plan :=
  exists_ofTree fun _ hp => exists_change t hw hc hp

end Deadwood.Plan
