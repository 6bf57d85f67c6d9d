import Deadwood.Proofs.Removal.Rebuild

/-!
What replacements are put together from: slices of the source in their order, and punctuation.
-/
namespace Deadwood

/-- Bytes made of slices of the source between two offsets, one after another, and of commas and
braces. -/
inductive Assembles (source : Bytes) : Nat → Nat → List Range → Bytes → Prop
  | nil {first last : Nat} : first ≤ last → Assembles source first last [] []
  | mark {first last : Nat} {slices : List Range} {bytes : Bytes} {text : String} :
      text ∈ ["\x7b ", " \x7d", ", "] → Assembles source first last slices bytes →
      Assembles source first last slices (Utf8.encode text ++ bytes)
  | slice {first last : Nat} {slices : List Range} {bytes : Bytes} {r : Range} :
      first ≤ r.start → r.start ≤ r.stop → Assembles source r.stop last slices bytes →
      Assembles source first last (r :: slices) (source.slice r.start r.stop ++ bytes)

namespace Assembles

variable {source : Bytes} {first middle last : Nat} {slices slices' : List Range}
  {bytes bytes' : Bytes}

theorem le (h : Assembles source first last slices bytes) : first ≤ last := by
  induction h with
  | nil h => exact h
  | mark _ _ ih => exact ih
  | slice hstart hle _ ih => exact (hstart.trans hle).trans ih

theorem mono (h : Assembles source middle last slices bytes) (hle : first ≤ middle) :
    Assembles source first last slices bytes := by
  induction h with
  | nil h => exact .nil (hle.trans h)
  | mark htext _ ih => exact .mark htext (ih hle)
  | slice hstart h' hrest _ => exact .slice (hle.trans hstart) h' hrest

theorem append (h : Assembles source first middle slices bytes)
    (h' : Assembles source middle last slices' bytes') :
    Assembles source first last (slices ++ slices') (bytes ++ bytes') := by
  induction h with
  | nil hle => exact h'.mono hle
  | mark htext _ ih =>
    rw [List.append_assoc]
    exact .mark htext (ih h')
  | slice hstart hle _ ih =>
    rw [List.append_assoc]
    exact .slice hstart hle (ih h')

theorem of_slice (hle : first ≤ last) :
    Assembles source first last [⟨first, last⟩] (source.slice first last) := by
  have h : Assembles source first last [⟨first, last⟩] (source.slice first last ++ []) :=
    .slice le_rfl hle (.nil le_rfl)
  rwa [List.append_nil] at h

theorem of_mark {text : String} (htext : text ∈ ["\x7b ", " \x7d", ", "]) (hle : first ≤ last) :
    Assembles source first last [] (Utf8.encode text) := by
  have h : Assembles source first last [] (Utf8.encode text ++ []) := .mark htext (.nil hle)
  rwa [List.append_nil] at h

theorem within (h : Assembles source first last slices bytes) :
    ∀ r ∈ slices, first ≤ r.start ∧ r.stop ≤ last := by
  induction h with
  | nil => simp
  | mark _ _ ih => exact ih
  | slice hstart hle hrest ih =>
    rw [List.forall_mem_cons]
    exact ⟨⟨hstart, hrest.le⟩, fun r hr => ⟨(hstart.trans hle).trans (ih r hr).1, (ih r hr).2⟩⟩

end Assembles

namespace Plan

variable {t : Targets} {source : Bytes} {tree : Node} {p q : Place} {c : Change}

/-- Texts that are assembled from places in order are so when they are listed. -/
theorem assembles_commaSeparated (source : Bytes) {P : Range → Prop} {first last : Nat}
    {places : List Place} (text? : Place → Option String)
    (hsorted : places.Pairwise fun a b => a.node.stop ≤ b.node.start) (hle : first ≤ last)
    (hin : ∀ q ∈ places, first ≤ q.node.start ∧ q.node.stop ≤ last)
    (h : ∀ q ∈ places, ∀ text, text? q = some text →
      ∃ slices, Assembles source q.node.start q.node.stop slices (Utf8.encode text) ∧
        ∀ r ∈ slices, P r) :
    ∃ slices, Assembles source first last slices
      (Utf8.encode (commaSeparated (places.filterMap text?))) ∧ ∀ r ∈ slices, P r := by
  induction places generalizing first with
  | nil => exact ⟨[], .nil hle, by simp⟩
  | cons q rest ih =>
    rw [List.pairwise_cons] at hsorted
    rw [List.forall_mem_cons] at hin h
    cases htext : text? q with
    | none =>
      rw [List.filterMap_cons_none htext]
      exact ih hsorted.2 hle hin.2 h.2
    | some text =>
      rw [List.filterMap_cons_some htext]
      obtain ⟨slices, hslices, hP⟩ := h.1 text htext
      have hstop : ∀ q' ∈ rest, q.node.stop ≤ q'.node.start ∧ q'.node.stop ≤ last :=
        fun q' hq' => ⟨hsorted.1 q' hq', (hin.2 q' hq').2⟩
      obtain ⟨slices', hslices', hP'⟩ := ih hsorted.2 hin.1.2 hstop h.2
      have hfirst := hslices.mono hin.1.1
      cases hrest : rest.filterMap text? with
      | nil =>
        refine ⟨slices, ?_, hP⟩
        have h := hfirst.append (.nil hin.1.2)
        simpa [commaSeparated] using h
      | cons b others =>
        refine ⟨slices ++ slices', ?_, ?_⟩
        · rw [hrest] at hslices'
          have hcomma : ", " ∈ ["\x7b ", " \x7d", ", "] := by simp
          have h := hfirst.append (.mark hcomma hslices')
          rw [commaSeparated, String.intercalate_cons_cons, Utf8.encode_append,
            Utf8.encode_append, List.append_assoc]
          exact h
        · intro r hr
          exact (List.mem_append.1 hr).elim (hP r) (hP' r)

theorem assembles_text (hw : WellFormed source tree) (hc : OnCharacters source tree)
    (hp : Place.Of tree p) : Assembles source p.node.start p.node.stop
      [⟨p.node.start, p.node.stop⟩] (Utf8.encode (p.node.text source)) := by
  have hbounds := hc _ hp.mem_nodes
  rw [Node.text, Node.bytes, Utf8.encode_decodeLossy (Utf8.isValid_slice hbounds.1 hbounds.2)]
  exact .of_slice (hp.start_le_stop hw.isLaidOut)

/-- The kept children of a place, in braces. -/
theorem assembles_braced {P : Range → Prop} {places : List Place} (hw : WellFormed source tree)
    (hc : OnCharacters source tree) (hp : Place.Of tree p) (hsub : places.Sublist p.children)
    (hP : ∀ q ∈ places, P ⟨q.node.start, q.node.stop⟩) :
    ∃ slices, Assembles source p.node.start p.node.stop slices
      (Utf8.encode (braced (places.map (·.node.text source)))) ∧ ∀ r ∈ slices, P r := by
  have hof : ∀ q ∈ places, Place.Of tree q := fun q hq => hp.of_mem_children (hsub.subset hq)
  have hle := hp.start_le_stop hw.isLaidOut
  obtain ⟨slices, hslices, hall⟩ := assembles_commaSeparated source (P := P)
    (fun q => some (q.node.text source)) ((hp.pairwise_children hw.isLaidOut).sublist hsub) hle
    (fun q hq => hp.covers_children hw.isLaidOut (hsub.subset hq))
    (fun q hq text htext => by
      cases htext
      exact ⟨_, assembles_text hw hc (hof q hq), by simpa using hP q hq⟩)
  rw [List.filterMap_eq_map'] at hslices
  refine ⟨slices, ?_, hall⟩
  have hopen : "\x7b " ∈ ["\x7b ", " \x7d", ", "] := by simp
  have hclose : " \x7d" ∈ ["\x7b ", " \x7d", ", "] := by simp
  rw [braced, Utf8.encode_append, Utf8.encode_append]
  have h := (Assembles.mark hopen hslices).append (.of_mark hclose le_rfl)
  rwa [List.append_nil] at h

/-- A node lies outside a range. -/
def Avoids (n : Node) (r : Range) : Prop := n.stop ≤ r.start ∨ r.stop ≤ n.start

theorem Avoids.mono {n : Node} {r r' : Range} (h : Avoids n r) (hstart : r.start ≤ r'.start)
    (hstop : r'.stop ≤ r.stop) : Avoids n r' :=
  h.imp (fun h => h.trans hstart) fun h => hstop.trans h

/-- What lies below one child lies outside another. -/
theorem avoids_of_children (hw : WellFormed source tree) (hp : Place.Of tree p) {a b name : Place}
    (ha : a ∈ p.children) (hb : b ∈ p.children) (hne : b.address ≠ a.address)
    (hname : Place.Of tree name) (hsuffix : b.address <:+ name.address) :
    Avoids name.node ⟨a.node.start, a.node.stop⟩ := by
  have hin := hname.within (hp.of_mem_children hb) hw.isLaidOut hsuffix
  rcases hp.apart_of_children hw.isLaidOut hb ha hne with h | h
  · exact .inl (hin.2.trans h)
  · exact .inr (h.trans hin.1)

/-- A rebuilt pattern copies nothing of what it removes. -/
theorem exists_slices_of_pattern (hw : WellFormed source tree) (hc : OnCharacters source tree)
    (hp : Place.Of tree p) {removed : List Binding}
    (hremoved : removed = removedBindings t source (Binding.ofPattern p)) :
    ∃ slices, Assembles source p.node.start p.node.stop slices
        (Utf8.encode (braced ((keptProperties removed p).map (·.node.text source)))) ∧
      ∀ r ∈ slices, ∀ b ∈ removed, Avoids b.name.node r := by
  refine assembles_braced hw hc hp (List.filter_sublist.trans List.filter_sublist) ?_
  intro q hq b hb
  obtain ⟨hq, hkept⟩ := List.mem_filter.1 hq
  rw [Bool.and_eq_true, Bool.not_eq_true', isPartOf_eq_false] at hkept
  have hne := hkept.1 b hb
  rw [hremoved, mem_removedBindings] at hb
  obtain ⟨-, hname, hsuffix⟩ := Binding.ofPattern_of_tree hp hb.1
  exact avoids_of_children hw hp (Place.mem_children_of_mem_namedChildren hq)
    (Place.mem_children_of_mem_namedChildren (Binding.mem_ofPattern.1 hb.1).1) hne hname hsuffix

/-- A binding of a clause lies outside the parts it does not belong to. -/
theorem avoids_of_part {clause part : Place} {b : Binding} (hw : WellFormed source tree)
    (hc : Place.Of tree clause) (hclause : Binding.clause? p = some clause)
    (hb : b ∈ Binding.ofImport p) (hpart : part ∈ clause.namedChildren)
    (hne : b ∉ Binding.ofClausePart part) :
    Avoids b.name.node ⟨part.node.start, part.node.stop⟩ := by
  obtain ⟨clause', part', hclause', hpart', hb⟩ := Binding.mem_ofImport.1 hb
  rw [hclause, Option.some.injEq] at hclause'
  subst hclause'
  have hmem := Place.mem_children_of_mem_namedChildren hpart
  have hmem' := Place.mem_children_of_mem_namedChildren hpart'
  have hof' := hc.of_mem_children hmem'
  have hne' : part'.address ≠ part.address := by
    intro heq
    rw [hof'.eq_of_address (hc.of_mem_children hmem) heq] at hb
    exact hne hb
  have hsuffix := Binding.ofClausePart_suffix hb
  exact avoids_of_children hw hc hmem hmem' hne' (Binding.ofClausePart_of_tree hof' hb).2
    (hsuffix.1.trans hsuffix.2)

/-- A removed binding of a list of imports lies outside the specifiers that stay. -/
theorem avoids_of_specifier {part specifier : Place} {b : Binding} (hw : WellFormed source tree)
    (hp : Place.Of tree part) (htype : part.node.type = "named_imports")
    (hs : specifier ∈ part.namedChildren) (hb : b ∈ Binding.ofClausePart part)
    (hne : b.part.address ≠ specifier.address) :
    Avoids b.name.node ⟨specifier.node.start, specifier.node.stop⟩ := by
  rcases Binding.mem_ofClausePart.1 hb with ⟨h, -⟩ | ⟨h, -⟩ | ⟨-, hpart, -⟩
  · simp [htype] at h
  · simp [htype] at h
  · exact avoids_of_children hw hp (Place.mem_children_of_mem_namedChildren hs)
      (Place.mem_children_of_mem_namedChildren hpart) hne (Binding.ofClausePart_of_tree hp hb).2
      (Binding.ofClausePart_suffix hb).2

/-- What is left of one part of a clause copies nothing of what is removed. -/
theorem exists_slices_of_part (hw : WellFormed source tree) (hc : OnCharacters source tree)
    (hp : Place.Of tree p) {clause part : Place} (hclause : Binding.clause? p = some clause)
    (hpart : part ∈ clause.namedChildren) {removed : List Binding}
    (hremoved : ∀ b ∈ removed, b ∈ Binding.ofImport p) {text : String}
    (htext : clausePart? source removed part = some text) :
    ∃ slices, Assembles source part.node.start part.node.stop slices (Utf8.encode text) ∧
      ∀ r ∈ slices, ∀ b ∈ removed, Avoids b.name.node r := by
  have hcof := hp.of_mem_children (Binding.mem_children_of_clause? hclause)
  have hof := hcof.of_mem_children (Place.mem_children_of_mem_namedChildren hpart)
  unfold clausePart? at htext
  split at htext
  · next htype =>
    dsimp only at htext
    split at htext
    · cases htext
    · cases htext
      refine assembles_braced hw hc hof (List.filter_sublist.trans List.filter_sublist) ?_
      intro q hq b hb
      obtain ⟨hq, hkept⟩ := List.mem_filter.1 hq
      rw [Bool.and_eq_true, Bool.not_eq_true', isPartOf_eq_false] at hkept
      by_cases hmem : b ∈ Binding.ofClausePart part
      · exact avoids_of_specifier hw hof htype hq hmem (hkept.2 b hb)
      · have hin := hof.covers_children hw.isLaidOut (Place.mem_children_of_mem_namedChildren hq)
        exact (avoids_of_part hw hcof hclause (hremoved b hb) hpart hmem).mono hin.1 hin.2
  · next htype =>
    split at htext
    · cases htext
    · next hkept =>
      cases htext
      rw [Bool.not_eq_true, isPartOf_eq_false] at hkept
      refine ⟨_, assembles_text hw hc hof, ?_⟩
      rw [List.forall_mem_singleton]
      intro b hb
      refine avoids_of_part hw hcof hclause (hremoved b hb) hpart ?_
      -- A binding of this part has the part itself for its own, and the part stays.
      intro hmem
      refine hkept b hb ?_
      rcases Binding.mem_ofClausePart.1 hmem with ⟨-, rfl⟩ | ⟨-, hbpart, -⟩ | ⟨h, -⟩
      · rfl
      · rw [hbpart]
      · exact absurd h htype

/-- A rebuilt import clause copies nothing of what it removes. -/
theorem exists_slices_of_clause (hw : WellFormed source tree) (hc : OnCharacters source tree)
    (hp : Place.Of tree p) {clause : Place} (hclause : Binding.clause? p = some clause)
    {removed : List Binding} (hremoved : removed = removedBindings t source (Binding.ofImport p)) :
    ∃ slices, Assembles source clause.node.start clause.node.stop slices
        (Utf8.encode (clauseText source removed clause)) ∧
      ∀ r ∈ slices, ∀ b ∈ removed, Avoids b.name.node r := by
  have hcof := hp.of_mem_children (Binding.mem_children_of_clause? hclause)
  have hbinding : ∀ b ∈ removed, b ∈ Binding.ofImport p := fun b hb => by
    rw [hremoved, mem_removedBindings] at hb
    exact hb.1
  refine assembles_commaSeparated source (P := fun r => ∀ b ∈ removed, Avoids b.name.node r) _
    ((hcof.pairwise_children hw.isLaidOut).sublist List.filter_sublist)
    (hcof.start_le_stop hw.isLaidOut)
    (fun q hq => hcof.covers_children hw.isLaidOut (Place.mem_children_of_mem_namedChildren hq)) ?_
  intro part hpart text htext
  exact exists_slices_of_part hw hc hp hclause hpart hbinding htext

/-- What is kept of a declarator copies nothing of the symbols that go. -/
theorem exists_slices_of_declarator (hw : WellFormed source tree) (hc : OnCharacters source tree)
    (hp : Place.Of tree p) {d : Place} (hd : d ∈ declarators p) {text : String}
    (htext : keptText? source d.node (fate t source d) = .ok (some text)) :
    ∃ slices, Assembles source d.node.start d.node.stop slices (Utf8.encode text) ∧
      ∀ r ∈ slices, ∀ b ∈ targeted t source d, Avoids b.1.node r := by
  have hof := hp.of_mem_children (mem_children_of_mem_declarators hd)
  have hform := form_fate t source (kind_of_mem_declarators hd)
  generalize fate t source d = f at hform htext
  cases hform with
  | keep hnone =>
    cases htext
    exact ⟨_, assembles_text hw hc hof, by simp [hnone]⟩
  | name | pattern => cases htext
  | @rebuild pattern removed kept hname hremoved hne htargeted hkept =>
    have hchild := Place.mem_children_of_child? hname
    have hpof := hof.of_mem_children hchild
    have hin := hof.covers_children hw.isLaidOut hchild
    have hle := hpof.start_le_stop hw.isLaidOut
    obtain ⟨slices, hslices, hall⟩ := exists_slices_of_pattern hw hc hpof hremoved
    have hencode := encode_of_keptText? htext
    rw [rebuilt_eq hin.1 hle hin.2] at hencode
    simp only [replacementOf, hkept] at hencode
    -- The head of the declarator, the new pattern and the tail.
    refine ⟨[⟨d.node.start, pattern.node.start⟩] ++ slices ++ [⟨pattern.node.stop, d.node.stop⟩],
      ?_, ?_⟩
    · rw [hencode]
      exact ((Assembles.of_slice hin.1).append hslices).append (.of_slice hin.2)
    · intro r hr b hb
      rw [htargeted] at hb
      obtain ⟨binding, hbinding, rfl⟩ := Symbol.mem_importSymbols.1 hb
      have hmem := hbinding
      rw [hremoved, mem_removedBindings] at hmem
      obtain ⟨hbname, hsuffix⟩ := Binding.ofPattern_below hpof hmem.1
      have hbin := hbname.within hpof hw.isLaidOut hsuffix
      simp only [List.mem_append, List.mem_singleton] at hr
      rcases hr with (rfl | hr) | rfl
      · exact .inr hbin.1
      · exact hall r hr binding hbinding
      · exact .inl hbin.2

/-- Symbols of one declarator lie outside every other. -/
theorem avoids_of_declarator (hw : WellFormed source tree) (hp : Place.Of tree p) {d d' : Place}
    (hd : d ∈ declarators p) (hd' : d' ∈ declarators p) (hne : d'.address ≠ d.address)
    {b : Place × SymbolKind} (hb : b ∈ targeted t source d') :
    Avoids b.1.node ⟨d.node.start, d.node.stop⟩ := by
  have hmem' := mem_children_of_mem_declarators hd'
  obtain ⟨hbof, hsuffix⟩ :=
    Symbol.definitions_of_tree (hp.of_mem_children hmem') (List.mem_of_mem_filter hb)
  exact avoids_of_children hw hp (mem_children_of_mem_declarators hd) hmem' hne hbof hsuffix

/-- A rebuilt list of declarators copies nothing of the symbols that go. -/
theorem exists_slices_of_list (hw : WellFormed source tree) (hc : OnCharacters source tree)
    (hp : Place.Of tree p) (hne : declarators p ≠ []) {kept : List String}
    (hkept : keptTexts source (fates t source p) = .ok kept) :
    ∃ slices, Assembles source (declaratorSpan (fates t source p)).start
        (declaratorSpan (fates t source p)).stop slices (Utf8.encode (commaSeparated kept)) ∧
      ∀ r ∈ slices, ∀ b ∈ (declarators p).flatMap (targeted t source), Avoids b.1.node r := by
  obtain ⟨first, hfirst, last, hlast, hspan, hcovers⟩ :=
    declaratorSpan_covers t source hp hw.isLaidOut hne
  have hof : ∀ {d}, d ∈ declarators p → Place.Of tree d := fun hd =>
    hp.of_mem_children (mem_children_of_mem_declarators hd)
  have hkept' : kept = (declarators p).filterMap
      fun d => (keptText? source d.node (fate t source d)).toOption.join := by
    rw [kept_eq_filterMap hkept, fates, List.filterMap_map]
    rfl
  have hle : first.node.start ≤ last.node.stop :=
    ((hof hfirst).start_le_stop hw.isLaidOut).trans (hcovers first hfirst).2
  rw [hspan, hkept']
  refine assembles_commaSeparated source
    (P := fun r => ∀ b ∈ (declarators p).flatMap (targeted t source), Avoids b.1.node r) _
    (pairwise_declarators hp hw.isLaidOut) hle hcovers ?_
  intro d hd text htext
  have hok : keptText? source d.node (fate t source d) = .ok (some text) := by
    cases h : keptText? source d.node (fate t source d) with
    | error e => simp [h, Except.toOption] at htext
    | ok o => simpa [h, Except.toOption] using htext
  obtain ⟨slices, hslices, hall⟩ := exists_slices_of_declarator hw hc hp hd hok
  refine ⟨slices, hslices, fun r hr b hb => ?_⟩
  obtain ⟨d', hd', hb⟩ := List.mem_flatMap.1 hb
  by_cases heq : d'.address = d.address
  · rw [(hof hd').eq_of_address (hof hd) heq] at hb
    exact hall r hr b hb
  · have hwithin := hslices.within r hr
    exact (avoids_of_declarator hw hp hd hd' heq hb).mono hwithin.1 hwithin.2

end Plan

end Deadwood
