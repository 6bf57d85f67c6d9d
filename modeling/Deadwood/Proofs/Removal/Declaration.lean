import Deadwood.Proofs.Removal.Declarator
import Deadwood.Proofs.Removal.Nesting

/-!
Variable declarations that keep something. If no declarator goes, each stands where it stood, with
its pattern written anew or with the edits inside it; else those that stay are listed anew
(`declarators_keep_text`).
-/
namespace Deadwood.Plan

section Declaration

variable {t : Targets} {source : Bytes} {tree : Node} {p d : Place} {plan : Plan}

/-- The text from the first declarator to the last. If one goes the others are listed, and no edit
is made inside them; else each stands where it stood. -/
inductive Rewrites (t : Targets) (source : Bytes) (edits : List Edit) (p : Place) : Bytes → Prop
  | listed (text : Place → String) : (∃ d ∈ declarators p, isDropped t source d = true) →
      (∀ d ∈ declarators p, isDropped t source d = false →
        Remains t source [] d (Utf8.encode (text d))) →
      Rewrites t source edits p (Utf8.encode (commaSeparated
        (((declarators p).filter fun d => ! isDropped t source d).map text)))
  | inPlace (text : Place → Bytes) : (∀ d ∈ declarators p, isDropped t source d = false) →
      (∀ d ∈ declarators p, Remains t source edits d (text d)) →
      Rewrites t source edits p (Edit.patch
        (source.take (declaratorSpan (fates t source p)).stop)
        (declaratorSpan (fates t source p)).start
        ((declarators p).map fun d => ⟨d.node.start, d.node.stop, text d⟩))

/-- The edited text is that from the first declarator to the last, with what edits make of the rest
before and behind. A declarator with a new pattern has the same text in both cases. -/
structure HoldsDeclarators (t : Targets) (source : Bytes) (p : Place) (edits : List Edit)
    (before stretch after : Bytes) : Prop where
  apply_eq : Edit.apply source edits = .ok (before ++ stretch ++ after)
  makes_before : Edit.Makes source edits ⟨0, (declaratorSpan (fates t source p)).start⟩ before
  makes_stretch : Edit.Makes source edits (declaratorSpan (fates t source p)) stretch
  makes_after : Edit.Makes source edits
    ⟨(declaratorSpan (fates t source p)).stop, source.length⟩ after
  rewrites : Rewrites t source edits p stretch
  agree : ∀ d ∈ declarators p, targeted t source d ≠ [] → ∀ text text',
    Remains t source [] d text → Remains t source edits d text' → text = text'

/-- The change of a declaration some declarators of which go. -/
def listChange (t : Targets) (source : Bytes) (p : Place) (kept : List String) : Change :=
  ⟨[⟨(declaratorSpan (fates t source p)).start, (declaratorSpan (fates t source p)).stop,
    Utf8.encode (commaSeparated kept)⟩], (fates t source p).flatMap (·.2.names), declarators p⟩

/-- The change of a declaration no declarator of which goes. -/
def patternChange (t : Targets) (source : Bytes) (p : Place) : Change :=
  ⟨(fates t source p).filterMap (·.2.pattern?), (fates t source p).flatMap (·.2.names),
    ((fates t source p).filter (·.2.pattern?.isSome)).map (·.1)⟩

theorem change_eq_of_kept (hk : p.node.kind = .variableDeclaration) {kept : List String}
    (hkept : keptTexts source (fates t source p) = .ok kept) (hne : kept ≠ [])
    (hnames : (fates t source p).flatMap (·.2.names) ≠ []) :
    change t source p = .ok (if (fates t source p).any (·.2.isDrop) then
      listChange t source p kept
    else patternChange t source p) := by
  rw [change, hk]
  change changeVariables t source p = _
  unfold changeVariables
  simp only [hkept, bind, Except.bind, pure, Except.pure]
  rw [if_neg (by simpa using hnames), if_neg (by simpa using hne), map_fst_fates]
  split <;> rfl

theorem any_isDrop (t : Targets) (source : Bytes) (hp : Place.Of tree p) :
    (fates t source p).any (·.2.isDrop) = (declarators p).any (isDropped t source) := by
  rw [fates, List.any_map, Bool.eq_iff_iff, List.any_eq_true, List.any_eq_true]
  refine exists_congr fun d => and_congr_right fun hd => ?_
  rw [Function.comp_apply, isDrop_fate t source
    (hp.of_mem_children (mem_children_of_mem_declarators hd)) (kind_of_mem_declarators hd)]

theorem applicable (hw : WellFormed source tree) (hg : Grammatical tree)
    (h : ofTree t source tree = .ok plan) : Edit.Applicable source plan.edits := by
  obtain ⟨steps, rfl, hsteps⟩ := exists_steps h
  rw [Step.edits_run, List.nil_append]
  have hfits := hsteps.fitsIn hw
  refine ⟨hsteps.pairwise_edits hw hg, fun e he => ?_, fun e he => (hfits e he).2⟩
  obtain ⟨x, hx, he⟩ := List.mem_flatMap.1 he
  exact (form_of_change (hsteps.change_eq x hx)).start_lt_edit hw hg (hsteps.of_tree x hx) he

/-- Edits that lie in one declarator lie in no other. -/
theorem eq_of_liesIn (hw : WellFormed source tree) (hp : Place.Of tree p) {d' : Place}
    (hd : d ∈ declarators p) (hd' : d' ∈ declarators p) {e : Edit} (hlt : e.start < e.stop)
    (hin : d.node.start ≤ e.start ∧ e.stop ≤ d.node.stop)
    (hin' : d'.node.start ≤ e.start ∧ e.stop ≤ d'.node.stop) : d = d' := by
  have hmem := mem_children_of_mem_declarators hd
  have hmem' := mem_children_of_mem_declarators hd'
  by_contra hne
  have haddress : d.address ≠ d'.address := fun heq =>
    hne ((hp.of_mem_children hmem).eq_of_address (hp.of_mem_children hmem') heq)
  rcases hp.apart_of_children hw.isLaidOut hmem hmem' haddress with h | h <;> omega

/-- No edit reaches across an end of the declarators. -/
def SparesEnds (t : Targets) (source : Bytes) (p : Place) (e : Edit) : Prop :=
  e.stop ≤ (declaratorSpan (fates t source p)).start ∨
    (declaratorSpan (fates t source p)).stop ≤ e.start ∨
    ((declaratorSpan (fates t source p)).start ≤ e.start ∧
      e.stop ≤ (declaratorSpan (fates t source p)).stop)

theorem declaratorSpan_within (t : Targets) (source : Bytes) (hw : WellFormed source tree)
    (hp : Place.Of tree p) (hne : declarators p ≠ []) :
    p.node.start ≤ (declaratorSpan (fates t source p)).start ∧
      (declaratorSpan (fates t source p)).stop ≤ p.node.stop := by
  obtain ⟨first, hfirst, last, hlast, hspan, -⟩ :=
    declaratorSpan_covers t source hp hw.isLaidOut hne
  rw [hspan]
  exact ⟨(hp.covers_children hw.isLaidOut (mem_children_of_mem_declarators hfirst)).1,
    (hp.covers_children hw.isLaidOut (mem_children_of_mem_declarators hlast)).2⟩

theorem sparesEnds_of_outside (hw : WellFormed source tree) (hp : Place.Of tree p)
    (hne : declarators p ≠ []) {e : Edit} (h : e.stop ≤ p.node.start ∨ p.node.stop ≤ e.start) :
    SparesEnds t source p e := by
  have hin := declaratorSpan_within t source hw hp hne
  exact h.imp (fun h => h.trans hin.1) fun h => .inl (hin.2.trans h)

theorem sparesEnds_of_within (hw : WellFormed source tree) (hp : Place.Of tree p)
    (hd : d ∈ declarators p) {e : Edit} (h : d.node.start ≤ e.start ∧ e.stop ≤ d.node.stop) :
    SparesEnds t source p e := by
  obtain ⟨first, -, last, -, hspan, hcovers⟩ :=
    declaratorSpan_covers t source hp hw.isLaidOut (List.ne_nil_of_mem hd)
  rw [SparesEnds, hspan]
  exact .inr (.inr ⟨(hcovers d hd).1.trans h.1, h.2.trans (hcovers d hd).2⟩)

/-- If a declarator goes, the edits of a plan put the list of the others in the place of all. -/
theorem makes_list (hw : WellFormed source tree) (hp : Place.Of tree p) {edits : List Edit}
    (happ : Edit.Applicable source edits) {kept : List String} (hkept : commaSeparated kept ≠ "")
    (hne : declarators p ≠ []) (hsub : (listChange t source p kept).edits ⊆ edits)
    (haround : ∀ e ∈ edits, LiesAround p (listChange t source p kept) e) :
    (∀ e ∈ edits, SparesEnds t source p e) ∧
      Edit.Makes source edits (declaratorSpan (fates t source p))
        (Utf8.encode (commaSeparated kept)) := by
  have hmem := hsub (List.mem_singleton_self _)
  have hends : ∀ e ∈ edits, e ∈ (listChange t source p kept).edits ∨
      e.stop ≤ p.node.start ∨ p.node.stop ≤ e.start := fun e he => by
    rcases haround e he with h | h | h | ⟨d, hd, hr, -⟩
    · exact .inl h
    · exact .inr (.inl h)
    · exact .inr (.inr h)
    · exact absurd hd hr
  constructor
  · intro e he
    rcases hends e he with h | h
    · rw [List.mem_singleton.1 h]
      exact .inr (.inr ⟨le_rfl, le_rfl⟩)
    · exact sparesEnds_of_outside hw hp hne h
  · have hone := happ.filter_eq_singleton (r := declaratorSpan (fates t source p)) hmem
      (Edit.liesIn_iff.2 ⟨le_rfl, le_rfl⟩) ?_ ?_
    · exact Edit.makes_of_filter_eq_self hone (happ.start_lt _ hmem) (happ.stop_le _ hmem)
    · rw [← Bool.not_eq_true, Edit.isDeletion_iff, Utf8.encode_eq_nil]
      exact hkept
    · intro e he hin
      have hlt := happ.start_lt e he
      have hspan := declaratorSpan_within t source hw hp hne
      rw [Edit.liesIn_iff] at hin
      exact List.mem_singleton.1 ((hends e he).resolve_right (by omega))

theorem mem_edits_patternChange {e : Edit} : e ∈ (patternChange t source p).edits ↔
    ∃ d ∈ declarators p, (fate t source d).pattern? = some e := by
  rw [patternChange, List.mem_filterMap]
  constructor
  · rintro ⟨f, hf, he⟩
    obtain ⟨hd, hfate⟩ := mem_fates.1 hf
    exact ⟨f.1, hd, hfate ▸ he⟩
  · rintro ⟨d, hd, he⟩
    exact ⟨(d, fate t source d), mem_fates.2 ⟨hd, rfl⟩, he⟩

theorem mem_replaced_patternChange (hd : d ∈ declarators p) :
    d ∈ (patternChange t source p).replaced ↔ (fate t source d).pattern?.isSome = true := by
  rw [patternChange, List.mem_map]
  constructor
  · rintro ⟨f, hf, rfl⟩
    obtain ⟨hf, hsome⟩ := List.mem_filter.1 hf
    rwa [(mem_fates.1 hf).2] at hsome
  · intro hsome
    exact ⟨(d, fate t source d), List.mem_filter.2 ⟨mem_fates.2 ⟨hd, rfl⟩, hsome⟩, rfl⟩

/-- If no declarator goes, an edit of a plan lies outside the declaration or in a declarator, and
there it is the new pattern if the declarator has one. -/
theorem cases_of_liesAround (hw : WellFormed source tree) (hp : Place.Of tree p) {e : Edit}
    (h : LiesAround p (patternChange t source p) e) :
    e.stop ≤ p.node.start ∨ p.node.stop ≤ e.start ∨ ∃ d ∈ declarators p,
      (d.node.start ≤ e.start ∧ e.stop ≤ d.node.stop) ∧
        ∀ e' ∈ (fate t source d).pattern?, e = e' := by
  rcases h with h | h | h | ⟨d, hd, hr, hin⟩
  · obtain ⟨d, hd, he⟩ := mem_edits_patternChange.1 h
    refine .inr (.inr ⟨d, hd, pattern_within hw hp hd he, fun e' he' => ?_⟩)
    rw [he] at he'
    exact Option.some.inj he'
  · exact .inl h
  · exact .inr (.inl h)
  · refine .inr (.inr ⟨d, hd, hin, fun e' he' => ?_⟩)
    rw [mem_replaced_patternChange hd, he'] at hr
    exact absurd rfl hr

/-- What the edits of a plan make of one declarator if no declarator goes. -/
theorem exists_remains (hw : WellFormed source tree) (hp : Place.Of tree p) {edits : List Edit}
    (happ : Edit.Applicable source edits) (hsub : (patternChange t source p).edits ⊆ edits)
    (haround : ∀ e ∈ edits, LiesAround p (patternChange t source p) e) (hd : d ∈ declarators p)
    (hstays : isDropped t source d = false) :
    ∃ text, Edit.Makes source edits ⟨d.node.start, d.node.stop⟩ text ∧
      Remains t source edits d text := by
  have hmem := mem_children_of_mem_declarators hd
  have hof := hp.of_mem_children hmem
  have hlen := hw.stop_le_length hof
  rcases fate_cases t source hof (kind_of_mem_declarators hd) with ⟨hf, hnone⟩ |
    ⟨names, hf, hdropped⟩ | ⟨names, pattern, hname, hsome, hrest, hf⟩
  · obtain ⟨text, hmakes⟩ := happ.exists_makes (hof.start_le_stop hw.isLaidOut) hlen
    exact ⟨text, hmakes, .whole hnone hmakes⟩
  · rw [hdropped] at hstays
    cases hstays
  · have he := congrArg Fate.pattern? hf
    generalize hedit : replacementOf pattern.node
      (braced ((remaining t source d).map (·.node.text source))) = e at he
    have hin := pattern_within hw hp hd he
    have hplan := hsub (mem_edits_patternChange.2 ⟨d, hd, he⟩)
    have hone := happ.filter_eq_singleton (r := ⟨d.node.start, d.node.stop⟩) hplan
      (Edit.liesIn_iff.2 hin) ?_ ?_
    · have hmakes := Edit.makes_of_filter_eq hone (happ.start_lt _ hplan) hlen
      refine ⟨_, hmakes, ?_⟩
      subst hedit
      exact .part hsome hrest hname
    · rw [← Bool.not_eq_true, Edit.isDeletion_iff, ← hedit, replacementOf, Utf8.encode_eq_nil]
      exact braced_ne_empty _
    · -- Another edit in the declarator would lie in another declarator, too.
      intro x hx hxin
      rw [Edit.liesIn_iff] at hxin
      have hlt := happ.start_lt x hx
      have hcovers := hp.covers_children hw.isLaidOut hmem
      rcases cases_of_liesAround hw hp (haround x hx) with h | h | ⟨d', hd', hin', hall⟩
      · dsimp only at hxin
        omega
      · dsimp only at hxin
        omega
      · rw [eq_of_liesIn hw hp hd' hd hlt hin' hxin] at hall
        exact hall e he

/-- Places one after another, each with a text. -/
theorem ordered_map {places : List Place} (text : Place → Bytes) {first last : Nat}
    (hsorted : places.Pairwise fun a b => a.node.stop ≤ b.node.start) (hle : first ≤ last)
    (hin : ∀ q ∈ places, first ≤ q.node.start ∧ q.node.start ≤ q.node.stop ∧ q.node.stop ≤ last) :
    Edit.Ordered first last (places.map fun q => ⟨q.node.start, q.node.stop, text q⟩) := by
  induction places generalizing first with
  | nil => exact hle
  | cons q rest ih =>
    rw [List.pairwise_cons] at hsorted
    rw [List.forall_mem_cons] at hin
    exact ⟨hin.1.1, hin.1.2.1, ih hsorted.2 hin.1.2.2 fun r hr => ⟨hsorted.1 r hr, (hin.2 r hr).2⟩⟩

/-- If no declarator goes, the edits of a plan make of each what remains of it, where it stands. -/
theorem makes_inPlace (hw : WellFormed source tree) (hp : Place.Of tree p) {edits : List Edit}
    (happ : Edit.Applicable source edits) (hne : declarators p ≠ []) {text : Place → Bytes}
    (htext : ∀ d ∈ declarators p, Edit.Makes source edits ⟨d.node.start, d.node.stop⟩ (text d))
    (haround : ∀ e ∈ edits, LiesAround p (patternChange t source p) e) :
    (∀ e ∈ edits, SparesEnds t source p e) ∧
      Edit.Makes source edits (declaratorSpan (fates t source p)) (Edit.patch
        (source.take (declaratorSpan (fates t source p)).stop)
        (declaratorSpan (fates t source p)).start
        ((declarators p).map fun d => ⟨d.node.start, d.node.stop, text d⟩)) := by
  have hof : ∀ {d}, d ∈ declarators p → Place.Of tree d := fun hd =>
    hp.of_mem_children (mem_children_of_mem_declarators hd)
  obtain ⟨first, hfirst, last, hlast, hspan, hcovers⟩ :=
    declaratorSpan_covers t source hp hw.isLaidOut hne
  have hordered : Edit.Ordered first.node.start last.node.stop
      ((declarators p).map fun d => ⟨d.node.start, d.node.stop, text d⟩) :=
    ordered_map text (pairwise_declarators hp hw.isLaidOut)
      (((hof hfirst).start_le_stop hw.isLaidOut).trans (hcovers first hfirst).2)
      fun d hd => ⟨(hcovers d hd).1, (hof hd).start_le_stop hw.isLaidOut, (hcovers d hd).2⟩
  constructor
  · intro e he
    rcases cases_of_liesAround hw hp (haround e he) with h | h | ⟨d, hd, hin, -⟩
    · exact sparesEnds_of_outside hw hp hne (.inl h)
    · exact sparesEnds_of_outside hw hp hne (.inr h)
    · exact sparesEnds_of_within hw hp hd hin
  · have hin := declaratorSpan_within t source hw hp hne
    rw [hspan] at hin ⊢
    refine happ.makes_patch hordered (hw.stop_le_length (hof hlast)) ?_ ?_
    · intro x hx
      obtain ⟨d, hd, rfl⟩ := List.mem_map.1 hx
      exact htext d hd
    · intro e he
      rcases cases_of_liesAround hw hp (haround e he) with h | h | ⟨d, hd, hin', -⟩
      · exact .inl (h.trans hin.1)
      · exact .inr (.inl (hin.2.trans h))
      · exact .inr (.inr ⟨_, List.mem_map_of_mem hd, hin'⟩)

/-- What the edits of a plan make of the declarators of a declaration that keeps something. -/
theorem exists_stretch (hw : WellFormed source tree) (hc : OnCharacters source tree)
    (hg : Grammatical tree) (hp : Place.Of tree p) (hk : p.node.kind = .variableDeclaration)
    {edits : List Edit} (happ : Edit.Applicable source edits)
    (hplan : ∀ c, change t source p = .ok c → c ≠ {} →
      c.edits ⊆ edits ∧ ∀ e ∈ edits, LiesAround p c e)
    (hgoes : ∃ d ∈ declarators p, targeted t source d ≠ [])
    (hstays : ∃ d ∈ declarators p, isDropped t source d = false) :
    ∃ stretch, (∀ e ∈ edits, SparesEnds t source p e) ∧
      Edit.Makes source edits (declaratorSpan (fates t source p)) stretch ∧
      Rewrites t source edits p stretch := by
  obtain ⟨text, hkept, hremains⟩ := exists_kept (t := t) hw hc hp
  obtain ⟨d, hd, hstays⟩ := hstays
  have hne := List.ne_nil_of_mem hd
  have hsome : ((declarators p).filter fun d => ! isDropped t source d).map text ≠ [] :=
    List.ne_nil_of_mem (List.mem_map_of_mem (List.mem_filter.2 ⟨hd, by simp [hstays]⟩))
  have hnames : (fates t source p).flatMap (·.2.names) ≠ [] := by
    obtain ⟨d', hd', htargeted⟩ := hgoes
    obtain ⟨b, hb⟩ := List.exists_mem_of_ne_nil _ htargeted
    rw [names_fates hk]
    exact List.ne_nil_of_mem (List.mem_map_of_mem ((mem_atStake hk).2 ⟨d', hd', hb⟩))
  have hchange := change_eq_of_kept hk hkept hsome hnames
  split at hchange
  · next hdrop =>
    rw [any_isDrop t source hp, List.any_eq_true] at hdrop
    obtain ⟨hsub, haround⟩ := hplan _ hchange (by rintro ⟨⟩)
    have hnonempty : commaSeparated (((declarators p).filter fun d =>
        ! isDropped t source d).map text) ≠ "" := by
      obtain ⟨s, hs⟩ := List.exists_mem_of_ne_nil _ hsome
      exact commaSeparated_ne_empty hs (ne_empty_of_mem_kept hw hg hp hkept hs)
    obtain ⟨hspares, hmakes⟩ := makes_list hw hp happ hnonempty hne hsub haround
    exact ⟨_, hspares, hmakes, .listed text hdrop hremains⟩
  · next hdrop =>
    rw [any_isDrop t source hp, Bool.not_eq_true, List.any_eq_false] at hdrop
    have hall : ∀ d ∈ declarators p, isDropped t source d = false := fun d hd => by
      simpa using hdrop d hd
    have hchanges : patternChange t source p ≠ {} := fun h => hnames (congrArg Change.names h)
    obtain ⟨hsub, haround⟩ := hplan _ hchange hchanges
    choose! text' hmakes hremains' using fun d (hd : d ∈ declarators p) =>
      exists_remains hw hp happ hsub haround hd (hall d hd)
    obtain ⟨hspares, hstretch⟩ := makes_inPlace hw hp happ hne hmakes haround
    exact ⟨_, hspares, hstretch, .inPlace text' hall hremains'⟩

/-- A declaration that keeps something holds what remains of the declarators that stay, in order. -/
theorem declarators_keep_text (t : Targets) (source : Bytes) (tree : Node) (p : Place)
    (hw : WellFormed source tree) (hc : OnCharacters source tree) (hg : Grammatical tree)
    (he : Enclosed tree) (hp : p ∈ reached t source tree)
    (hk : p.node.kind = .variableDeclaration)
    (houtside : ∀ plan, ofTree t source tree = .ok plan → ∀ e ∈ plan.edits, e.isDeletion = true →
      ¬ (e.start ≤ p.node.start ∧ p.node.stop ≤ e.stop))
    (hgoes : ∃ d ∈ declarators p, targeted t source d ≠ [])
    (hstays : ∃ d ∈ declarators p, isDropped t source d = false) :
    ∃ plan before stretch after, ofTree t source tree = .ok plan ∧
      HoldsDeclarators t source p plan.edits before stretch after := by
  obtain ⟨plan, hplan⟩ := exists_plan t hw hc
  have hof := of_tree_of_reached hplan hp
  obtain ⟨d, hd, -⟩ := id hstays
  have hmem := mem_children_of_mem_declarators hd
  have hlt := start_lt_of_not_isLeaf hw.isLaidOut hg hof (not_isLeaf_of_mem_children hmem)
  have happ := applicable hw hg hplan
  obtain ⟨stretch, hspares, hmakes, hrewrites⟩ := exists_stretch hw hc hg hof hk happ
    (fun c => liesAround_of_reached hw hg he hplan hp hk hlt (houtside plan hplan)) hgoes hstays
  obtain ⟨first, -, last, -, hspan, hcovers⟩ :=
    declaratorSpan_covers t source hof hw.isLaidOut (List.ne_nil_of_mem hd)
  have hle : (declaratorSpan (fates t source p)).start ≤
      (declaratorSpan (fates t source p)).stop := by
    rw [hspan]
    exact ((hcovers d hd).1.trans
      ((hof.of_mem_children hmem).start_le_stop hw.isLaidOut)).trans (hcovers d hd).2
  have hin := declaratorSpan_within t source hw hof (List.ne_nil_of_mem hd)
  obtain ⟨before, after, hbefore, hafter, happly⟩ := happ.exists_apply_eq hspares hle
    (hin.2.trans (hw.stop_le_length hof)) hmakes
  exact ⟨plan, before, stretch, after, hplan,
    { apply_eq := happly
      makes_before := hbefore
      makes_stretch := hmakes
      makes_after := hafter
      rewrites := hrewrites
      agree := fun d _ hsome _ _ => Remains.eq_of_targeted hsome }⟩

end Declaration

namespace Destructured

open Deadwood.Sample (node token)

/-- A declaration with a pattern, and a function inside its other declarator. -/
def source : Bytes :=
  Utf8.encode ("const \x7b a, b \x7d = require(\"m\"), f = () => \x7b\n" ++
    "  function g() \x7b\x7d\n\x7d;\n")

def pattern : Node :=
  node "object_pattern" (some "name") 6 14 [token "\x7b" 6 7,
    node "shorthand_property_identifier_pattern" none 8 9 [], token "," 9 10,
    node "shorthand_property_identifier_pattern" none 11 12 [], token "\x7d" 13 14]

def required : Node :=
  node "call_expression" (some "value") 17 29 [node "identifier" (some "function") 17 24 [],
    node "arguments" (some "arguments") 24 29 [token "(" 24 25,
      node "string" none 25 28 [token "\"" 25 26, node "string_fragment" none 26 27 [],
        token "\"" 27 28],
      token ")" 28 29]]

def function : Node :=
  node "function_declaration" none 45 60 [token "function" 45 53,
    node "identifier" (some "name") 54 55 [],
    node "formal_parameters" (some "parameters") 55 57 [token "(" 55 56, token ")" 56 57],
    node "statement_block" (some "body") 58 60 [token "\x7b" 58 59, token "\x7d" 59 60]]

def arrow : Node :=
  node "arrow_function" (some "value") 35 62 [
    node "formal_parameters" (some "parameters") 35 37 [token "(" 35 36, token ")" 36 37],
    token "=>" 38 40,
    node "statement_block" (some "body") 41 62 [token "\x7b" 41 42, function, token "\x7d" 61 62]]

def declaration : Node :=
  node "lexical_declaration" none 0 63 [token "const" 0 5,
    node "variable_declarator" none 6 29 [pattern, token "=" 15 16, required], token "," 29 30,
    node "variable_declarator" none 31 62 [node "identifier" (some "name") 31 32 [],
      token "=" 33 34, arrow],
    token ";" 62 63]

def tree : Node := node "program" none 0 64 [declaration]

def targets : Targets := [("a", .importBinding), ("g", .function)]

def place : Place := ⟨declaration, [(tree, 0)]⟩

theorem wellFormed : WellFormed source tree := by decide +kernel

theorem onCharacters : OnCharacters source tree := by decide +kernel

theorem grammatical : Grammatical tree := by decide +kernel

theorem enclosed : Enclosed tree := by decide +kernel

theorem ofTree_eq : ofTree targets source tree =
    .ok ⟨[⟨6, 14, Utf8.encode "\x7b b \x7d"⟩, ⟨43, 61, []⟩], 2, ["a", "g"]⟩ := by decide +kernel

theorem mem_reached : place ∈ reached targets source tree := by
  have haddress : [0] ∈ (reached targets source tree).map Place.address := by decide +kernel
  obtain ⟨q, hq, heq⟩ := List.mem_map.1 haddress
  have hplace : Place.Of tree place := .child .top rfl
  rwa [(of_tree_of_reached ofTree_eq hq).eq_of_address hplace heq] at hq

theorem outside (plan : Plan) (h : ofTree targets source tree = .ok plan) :
    ∀ e ∈ plan.edits, e.isDeletion = true →
      ¬ (e.start ≤ place.node.start ∧ place.node.stop ≤ e.stop) := by
  obtain rfl := Except.ok.inj (ofTree_eq.symm.trans h)
  decide +kernel

end Destructured

/-- The pattern loses a name where it stands, and the function goes from the other declarator. -/
theorem declarators_keep_text_sample : ∃ plan before stretch after,
    ofTree Destructured.targets Destructured.source Destructured.tree = .ok plan ∧
      HoldsDeclarators Destructured.targets Destructured.source Destructured.place plan.edits before
        stretch after :=
  declarators_keep_text Destructured.targets Destructured.source Destructured.tree
    Destructured.place Destructured.wellFormed Destructured.onCharacters Destructured.grammatical
    Destructured.enclosed Destructured.mem_reached rfl Destructured.outside (by decide +kernel)
    (by decide +kernel)

end Deadwood.Plan
