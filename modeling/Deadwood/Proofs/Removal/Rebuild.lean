import Deadwood.Proofs.Removal.Change

/-!
The edits of a change. A deletion takes what it targets, in a list of statements or class members;
any other edit rebuilds a part of its place that is replaced, or a variable declaration all of whose
declarators are.
-/
namespace Deadwood

def Edit.range (e : Edit) : Range := ⟨e.start, e.stop⟩

namespace Plan

variable {t : Targets} {source : Bytes} {tree : Node} {p q target : Place} {c : Change}

/-- What a deletion for a place is to delete: the declaration or its export, or the method with
its semicolon. -/
inductive IsTarget (p : Place) : Place → Bool → Prop
  | statement {target : Place} :
      p.node.kind ∈ [.functionDeclaration, .variableDeclaration, .importStatement] →
      statementTarget? p = some target → IsTarget p target false
  | method : p.node.kind = .method → p.parentType? = some "class_body" → IsTarget p p true

theorem statementTarget?_cases (h : statementTarget? p = some target) :
    isStatementPlace target = true ∧ (target = p ∨ p.parent? = some target) := by
  unfold statementTarget? at h
  cases hparent : p.parent? with
  | none => simp [hparent] at h
  | some parent =>
    simp only [hparent] at h
    split at h
    · split at h
      · cases h
      · split at h
        · next hstat =>
          cases h
          exact ⟨hstat, .inr rfl⟩
        · cases h
    · split at h
      · next hholds =>
        cases h
        exact ⟨by simpa [isStatementPlace, Place.parentType?, hparent] using hholds, .inl rfl⟩
      · cases h

namespace IsTarget

variable {withSemicolon : Bool}

theorem isListed (h : IsTarget p target withSemicolon) : target.isListed = true := by
  cases h with
  | statement _ h => simp [Place.isListed, (statementTarget?_cases h).1]
  | method _ h => simp [Place.isListed, h]

theorem eq_or_parent (h : IsTarget p target withSemicolon) :
    target = p ∨ p.parent? = some target := by
  cases h with
  | statement _ h => exact (statementTarget?_cases h).2
  | method => exact .inl rfl

theorem of_tree (h : IsTarget p target withSemicolon) (hp : Place.Of tree p) :
    Place.Of tree target := by
  rcases h.eq_or_parent with rfl | h
  · exact hp
  · exact (Place.of_parent hp h).1

theorem address_suffix (h : IsTarget p target withSemicolon) :
    target.address <:+ p.address := by
  rcases h.eq_or_parent with rfl | h
  · exact List.suffix_rfl
  · exact Place.suffix_of_parent h

end IsTarget

theorem type_of_mem_declarators {d : Place} (h : d ∈ declarators p) :
    d.node.type = "variable_declarator" := by
  simpa using (List.mem_filter.1 h).2

theorem kind_of_mem_declarators {d : Place} (h : d ∈ declarators p) :
    d.node.kind = .variableDeclarator := by
  rw [Node.kind, type_of_mem_declarators h]
  rfl

theorem pairwise_declarators (hp : Place.Of tree p) (h : tree.isLaidOut = true) :
    (declarators p).Pairwise fun a b => a.node.stop ≤ b.node.start :=
  (hp.pairwise_children h).sublist (List.filter_sublist.trans List.filter_sublist)

theorem declaratorSpan_eq (t : Targets) (source : Bytes) (hne : declarators p ≠ []) :
    declaratorSpan (fates t source p) =
      ⟨((declarators p).head hne).node.start, ((declarators p).getLast hne).node.stop⟩ := by
  have hspan : declaratorSpan (fates t source p) =
      ⟨((declarators p).head?.map (·.node.start)).getD 0,
        ((declarators p).getLast?.map (·.node.stop)).getD 0⟩ := by
    simp [declaratorSpan, ← map_fst_fates t source p, Function.comp_def]
  rw [hspan, List.head?_eq_some_head hne, List.getLast?_eq_some_getLast hne]
  rfl

/-- The span of the declarators reaches from one to another and covers each. -/
theorem declaratorSpan_covers (t : Targets) (source : Bytes) (hp : Place.Of tree p)
    (h : tree.isLaidOut = true) (hne : declarators p ≠ []) :
    ∃ first ∈ declarators p, ∃ last ∈ declarators p,
      declaratorSpan (fates t source p) = ⟨first.node.start, last.node.stop⟩ ∧
      ∀ d ∈ declarators p, first.node.start ≤ d.node.start ∧ d.node.stop ≤ last.node.stop := by
  -- The list is in order, so its head starts first and its last stops last.
  have hordered := pairwise_declarators hp h
  have hof : ∀ d ∈ declarators p, d.node.start ≤ d.node.stop := fun d hd =>
    (hp.of_mem_children (mem_children_of_mem_declarators hd)).start_le_stop h
  refine ⟨(declarators p).head hne, List.head_mem hne, (declarators p).getLast hne,
    List.getLast_mem hne, declaratorSpan_eq t source hne, ?_⟩
  intro d hd
  obtain ⟨k, hk, rfl⟩ := List.mem_iff_getElem.1 hd
  rw [List.pairwise_iff_getElem] at hordered
  rw [List.head_eq_getElem, List.getLast_eq_getElem]
  constructor
  · rcases Nat.eq_zero_or_pos k with rfl | hpos
    · exact le_rfl
    · exact (hof _ (List.getElem_mem _)).trans (hordered 0 k _ hk hpos)
  · rcases Nat.lt_or_ge k ((declarators p).length - 1) with hlt | hge
    · exact (hordered k _ hk _ hlt).trans (hof _ (List.getElem_mem _))
    · obtain rfl : k = (declarators p).length - 1 := by omega
      exact le_rfl

/-- A stretch of a tree from one place to another. -/
structure Part where
  first : Place
  last : Place

namespace Part

def range (r : Part) : Range := ⟨r.first.node.start, r.last.node.stop⟩

/-- Whether a place lies in the stretch. -/
def covers (r : Part) (q : Place) : Bool :=
  decide (r.range.start ≤ q.node.start ∧ q.node.stop ≤ r.range.stop)

/-- What is rebuilt: the clause of an import, the object pattern that a declarator binds, or the
declarators of a declaration from the first to the last. -/
inductive IsRebuilt (tree : Node) : Part → Prop
  | clause {statement clause : Place} : Place.Of tree statement →
      statement.node.kind = .importStatement → Binding.clause? statement = some clause →
      IsRebuilt tree ⟨clause, clause⟩
  | pattern {d pattern : Place} : Place.Of tree d → d.node.kind = .variableDeclarator →
      d.child? "name" = some pattern → pattern.node.type = "object_pattern" →
      IsRebuilt tree ⟨pattern, pattern⟩
  | declarators {declaration first last : Place} : Place.Of tree declaration →
      declaration.node.kind = .variableDeclaration →
      (declarators declaration).head? = some first →
      (declarators declaration).getLast? = some last → IsRebuilt tree ⟨first, last⟩

theorem IsRebuilt.siblings {r : Part} (h : r.IsRebuilt tree) :
    ∃ q, Place.Of tree q ∧ r.first ∈ q.children ∧ r.last ∈ q.children := by
  cases h with
  | clause hof _ hclause =>
    have hchild := Binding.mem_children_of_clause? hclause
    exact ⟨_, hof, hchild, hchild⟩
  | pattern hof _ hpattern =>
    have hchild := Place.mem_children_of_child? hpattern
    exact ⟨_, hof, hchild, hchild⟩
  | declarators hof _ hfirst hlast =>
    exact ⟨_, hof, mem_children_of_mem_declarators (List.mem_of_mem_head? hfirst),
      mem_children_of_mem_declarators (List.mem_of_getLast? hlast)⟩

end Part

/-- An edit that rebuilds what it replaces: one child of the place, or the declarators among its
children. -/
structure RebuildsIn (source : Bytes) (tree : Node) (p : Place) (c : Change) (e : Edit)
    (core : Place) : Prop where
  of_tree : Place.Of tree core
  within : core.node.start ≤ e.start ∧ e.stop ≤ core.node.stop
  start_lt : e.start < e.stop
  part : ∃ r : Part, r.IsRebuilt tree ∧ r.range = e.range
  replacement : ∃ text, e.replacement = Utf8.encode text ∧ text ≠ ""
  replaced : core ∈ c.replaced ∧ core ∈ p.children ∨
    core = p ∧ p.node.kind = .variableDeclaration ∧ c.replaced = declarators p

theorem RebuildsIn.siblings {e : Edit} {core : Place} (h : RebuildsIn source tree p c e core) :
    ∃ (q : Place) (i j : Nat) (first last : Node), Place.Of tree q ∧
      q.node.children[i]? = some first ∧ q.node.children[j]? = some last ∧
      e.start = first.start ∧ e.stop = last.stop := by
  obtain ⟨r, hr, hrange⟩ := h.part
  obtain ⟨hstart, hstop⟩ := Range.mk.inj hrange
  obtain ⟨q, hq, hfirst, hlast⟩ := hr.siblings
  obtain ⟨i, hi⟩ := Place.exists_getElem?_of_mem_children hfirst
  obtain ⟨j, hj⟩ := Place.exists_getElem?_of_mem_children hlast
  exact ⟨q, i, j, _, _, hq, hi, hj, hstart.symm, hstop.symm⟩

theorem start_lt_of_not_isLeaf (hl : tree.isLaidOut = true) (hg : Grammatical tree)
    (hp : Place.Of tree p) (h : p.node.isLeaf = false) : p.node.start < p.node.stop := by
  have hle := hp.start_le_stop hl
  by_contra hlt
  have hleaf := (hg.solid p (Place.mem_preorder.2 hp) (by omega)).1
  rw [h] at hleaf
  cases hleaf

theorem not_isLeaf_of_mem_children {d : Place} (h : d ∈ p.children) : p.node.isLeaf = false := by
  obtain ⟨i, n, hi, rfl⟩ := Place.mem_children.1 h
  rw [Node.isLeaf, List.isEmpty_eq_false_iff]
  intro hnil
  simp [hnil] at hi

theorem braced_ne_empty (texts : List String) : braced texts ≠ "" := by
  intro h
  have hlen := congrArg String.length h
  simp [braced, String.length_append] at hlen

theorem commaSeparated_ne_empty {texts : List String} {text : String} (hmem : text ∈ texts)
    (hne : text ≠ "") : commaSeparated texts ≠ "" := by
  unfold commaSeparated
  cases texts with
  | nil => cases hmem
  | cons a rest =>
    cases rest with
    | nil =>
      rw [List.mem_singleton] at hmem
      rwa [String.intercalate_singleton, ← hmem]
    | cons b rest =>
      rw [String.intercalate_cons_cons]
      intro h
      have hlen := congrArg String.length h
      simp [String.length_append] at hlen

/-- A named node below the root has a text. -/
theorem text_ne_empty (hw : WellFormed source tree) (hg : Grammatical tree)
    (hp : Place.Of tree p) (hq : q ∈ p.namedChildren) : q.node.text source ≠ "" := by
  have hof := hp.of_mem_children (Place.mem_children_of_mem_namedChildren hq)
  have hle := hof.start_le_stop hw.isLaidOut
  have hlt : q.node.start < q.node.stop := by
    by_contra hge
    have hroot := (hg.solid q (Place.mem_preorder.2 hof) (by omega)).2
      (Place.isNamed_of_mem_namedChildren hq)
    obtain ⟨i, n, hi, rfl⟩ :=
      Place.mem_children.1 (Place.mem_children_of_mem_namedChildren hq)
    cases hroot
  obtain ⟨b, hb⟩ := Bytes.exists_mem_slice hlt (hlt.trans_le (hw.stop_le_length hof))
  exact Utf8.decodeLossy_ne_empty (List.ne_nil_of_mem hb)

theorem mem_removedBindings {bindings : List Binding} {b : Binding} :
    b ∈ removedBindings t source bindings ↔
      b ∈ bindings ∧ t.holds source .importBinding b.name.node = true := List.mem_filter

theorem isPartOf_eq_false {bindings : List Binding} :
    isPartOf bindings p = false ↔ ∀ b ∈ bindings, b.part.address ≠ p.address := by
  simp [isPartOf]

/-- No name of the bindings is to go. -/
def spares (t : Targets) (source : Bytes) (bindings : List Binding) : Bool :=
  bindings.all fun b => ! t.holds source .importBinding b.name.node

/-- A part goes with the bindings it belongs to. -/
theorem isPartOf_removedBindings {bindings own : List Binding} {part : Place}
    (hown : ∀ b, b ∈ own ↔ b ∈ bindings ∧ b.part.address = part.address) :
    isPartOf (removedBindings t source bindings) part = ! spares t source own := by
  rw [Bool.eq_iff_iff, isPartOf, List.any_eq_true, Bool.not_eq_true', spares, List.all_eq_false]
  simp only [mem_removedBindings, decide_eq_true_eq, hown, Bool.not_eq_true', Bool.not_eq_false]
  constructor
  · rintro ⟨b, ⟨hb, hholds⟩, haddress⟩
    exact ⟨b, ⟨hb, haddress⟩, hholds⟩
  · rintro ⟨b, ⟨hb, haddress⟩, hholds⟩
    exact ⟨b, ⟨hb, hholds⟩, haddress⟩

/-- What an import clause keeps shows in its new text. -/
theorem clauseText_ne_empty (hw : WellFormed source tree) (hg : Grammatical tree)
    (hp : Place.Of tree p) {clause : Place} (hclause : Binding.clause? p = some clause)
    (hlen : (removedBindings t source (Binding.ofImport p)).length ≠ (Binding.ofImport p).length) :
    clauseText source (removedBindings t source (Binding.ofImport p)) clause ≠ "" := by
  have hc := hp.of_mem_children (Binding.mem_children_of_clause? hclause)
  -- One binding stays, and so does its part.
  obtain ⟨b, hb, hkept⟩ : ∃ b ∈ Binding.ofImport p,
      t.holds source .importBinding b.name.node = false := by
    by_contra hall
    push Not at hall
    refine hlen (congrArg List.length (List.filter_eq_self.2 fun b hb => ?_))
    simpa using hall b hb
  have hpart : isPartOf (removedBindings t source (Binding.ofImport p)) b.part = false := by
    rw [isPartOf_eq_false]
    intro b' hb' heq
    obtain ⟨hmem, hholds⟩ := mem_removedBindings.1 hb'
    have hone := fun (q : Place) (hq : Place.Of tree q) => hg.namespaced q.node hq.mem_nodes
    rw [Binding.eq_of_part hp hone hmem hb heq, hkept] at hholds
    cases hholds
  obtain ⟨clause', part, hclause', hmem, hb⟩ := Binding.mem_ofImport.1 hb
  rw [hclause, Option.some.injEq] at hclause'
  subst hclause'
  have hof := hc.of_mem_children (Place.mem_children_of_mem_namedChildren hmem)
  obtain ⟨text, htext, hne⟩ : ∃ text,
      clausePart? source (removedBindings t source (Binding.ofImport p)) part = some text ∧
        text ≠ "" := by
    unfold clausePart?
    rcases Binding.mem_ofClausePart.1 hb with ⟨htype, rfl⟩ | ⟨htype, hbp, -⟩ | ⟨htype, hbp, hspec⟩
    · rw [if_neg (by simp [htype]), hpart]
      exact ⟨_, rfl, text_ne_empty hw hg hc hmem⟩
    · rw [if_neg (by simp [htype]), ← hbp, hpart]
      exact ⟨_, rfl, text_ne_empty hw hg hc (hbp ▸ hmem)⟩
    · have hkeep : b.part ∈ part.namedChildren.filter fun s => s.node.type = "import_specifier" &&
          ! isPartOf (removedBindings t source (Binding.ofImport p)) s := by
        have htype := (Binding.ofSpecifier?_eq_some hspec).2.1
        exact List.mem_filter.2 ⟨hbp, by simp [htype, hpart]⟩
      rw [if_pos htype]
      dsimp only
      rw [if_neg (by simpa using List.ne_nil_of_mem hkeep)]
      exact ⟨_, rfl, braced_ne_empty _⟩
  exact commaSeparated_ne_empty (List.mem_filterMap.2 ⟨part, hmem, htext⟩) hne

/-- What a declarator keeps has a text. -/
theorem ne_empty_of_mem_kept (hw : WellFormed source tree) (hg : Grammatical tree)
    (hp : Place.Of tree p) {kept : List String} {text : String}
    (hkept : keptTexts source (fates t source p) = .ok kept) (htext : text ∈ kept) :
    text ≠ "" := by
  obtain ⟨⟨d, f⟩, hf, htext⟩ := (mem_kept hkept).1 htext
  obtain ⟨hd, hfate⟩ := mem_fates.1 hf
  have hnamed : d ∈ p.namedChildren := List.mem_of_mem_filter hd
  dsimp only at hd hfate htext
  have hform := form_fate t source (kind_of_mem_declarators hd)
  subst hfate
  generalize fate t source d = f at hform htext
  cases hform with
  | keep =>
    simp only [keptText?, Except.ok.injEq, Option.some.injEq] at htext
    exact htext ▸ text_ne_empty hw hg hp hnamed
  | name => cases htext
  | pattern => cases htext
  | rebuild =>
    -- The braces of the new pattern show in the text.
    have hencode := encode_of_keptText? htext
    intro hempty
    rw [Utf8.encode_eq_nil.2 hempty] at hencode
    simp only [rebuilt, replacementOf] at hencode
    have hnil := (List.append_eq_nil_iff.1 hencode.symm).1
    exact braced_ne_empty _ (Utf8.encode_eq_nil.1 (List.append_eq_nil_iff.1 hnil).2)

/-- A declarator to drop has a name, so it is no token. -/
theorem not_isLeaf_of_isDrop {f : Place × Fate} (hf : f ∈ fates t source p)
    (hdrop : f.2.isDrop = true) : f.1.node.isLeaf = false := by
  obtain ⟨hd, hfate⟩ := mem_fates.1 hf
  have hform := form_fate t source (kind_of_mem_declarators hd)
  rw [← hfate] at hform
  generalize f.2 = fate' at hform hdrop
  cases hform with
  | keep => cases hdrop
  | name hname => exact not_isLeaf_of_mem_children (Place.mem_children_of_child? hname)
  | pattern hname => exact not_isLeaf_of_mem_children (Place.mem_children_of_child? hname)
  | rebuild => cases hdrop

theorem rebuildsIn_clause (hw : WellFormed source tree) (hg : Grammatical tree)
    (hp : Place.Of tree p) (hk : p.node.kind = .importStatement) {removed : List Binding}
    {clause : Place} (hremoved : removed = removedBindings t source (Binding.ofImport p)) (hne : removed ≠ [])
    (hlen : removed.length ≠ (Binding.ofImport p).length)
    (hclause : Binding.clause? p = some clause) (names : List String) :
    RebuildsIn source tree p
      ⟨[replacementOf clause.node (clauseText source removed clause)], names, [clause]⟩
      (replacementOf clause.node (clauseText source removed clause)) clause := by
  subst hremoved
  have hmem := Binding.mem_children_of_clause? hclause
  have hof := hp.of_mem_children hmem
  refine ⟨hof, ⟨le_rfl, le_rfl⟩, ?_, ⟨_, .clause hp hk hclause, rfl⟩,
    ⟨_, rfl, clauseText_ne_empty hw hg hp hclause hlen⟩, .inl ⟨List.mem_singleton_self _, hmem⟩⟩
  -- What is removed has its part in the clause, so the clause is no token.
  obtain ⟨b, hb⟩ := List.exists_mem_of_ne_nil _ hne
  obtain ⟨clause', part, hclause', hpart, -⟩ :=
    Binding.mem_ofImport.1 (mem_removedBindings.1 hb).1
  rw [hclause, Option.some.injEq] at hclause'
  subst hclause'
  exact start_lt_of_not_isLeaf hw.isLaidOut hg hof
    (not_isLeaf_of_mem_children (Place.mem_children_of_mem_namedChildren hpart))

theorem rebuildsIn_list (hw : WellFormed source tree) (hg : Grammatical tree)
    (hp : Place.Of tree p) (hk : p.node.kind = .variableDeclaration) {kept : List String}
    (hkept : keptTexts source (fates t source p) = .ok kept) (hne : kept ≠ [])
    (hdrop : (fates t source p).any (·.2.isDrop) = true) {edits : List Edit}
    (names : List String) :
    RebuildsIn source tree p ⟨edits, names, declarators p⟩
      ⟨(declaratorSpan (fates t source p)).start, (declaratorSpan (fates t source p)).stop,
        Utf8.encode (commaSeparated kept)⟩ p := by
  obtain ⟨f, hf, hdrop⟩ := List.any_eq_true.1 hdrop
  have hd := (mem_fates.1 hf).1
  obtain ⟨first, hfirst, last, hlast, hspan, hcovers⟩ :=
    declaratorSpan_covers t source hp hw.isLaidOut (List.ne_nil_of_mem hd)
  have hchild : ∀ {d}, d ∈ declarators p → d ∈ p.children := mem_children_of_mem_declarators
  have hpart : ∃ r : Part, r.IsRebuilt tree ∧ r.range = declaratorSpan (fates t source p) :=
    ⟨_, .declarators hp hk (List.head?_eq_some_head (List.ne_nil_of_mem hd))
      (List.getLast?_eq_some_getLast (List.ne_nil_of_mem hd)), (declaratorSpan_eq t source _).symm⟩
  rw [hspan] at hpart ⊢
  refine ⟨hp, ⟨?_, ?_⟩, ?_, hpart, ⟨_, rfl, ?_⟩, .inr ⟨rfl, hk, rfl⟩⟩
  · exact (hp.covers_children hw.isLaidOut (hchild hfirst)).1
  · exact (hp.covers_children hw.isLaidOut (hchild hlast)).2
  · -- The declarator that goes is no token, and the span covers it.
    have hlt := start_lt_of_not_isLeaf hw.isLaidOut hg (hp.of_mem_children (hchild hd))
      (not_isLeaf_of_isDrop hf hdrop)
    exact ((hcovers _ hd).1.trans_lt hlt).trans_le (hcovers _ hd).2
  · obtain ⟨text, htext⟩ := List.exists_mem_of_ne_nil _ hne
    exact commaSeparated_ne_empty htext (ne_empty_of_mem_kept hw hg hp hkept htext)

theorem rebuildsIn_pattern (hw : WellFormed source tree) (hg : Grammatical tree)
    (hp : Place.Of tree p) {d : Place} (hd : d ∈ declarators p) {e : Edit}
    (he : (fate t source d).pattern? = some e) (hr : d ∈ c.replaced) :
    RebuildsIn source tree p c e d := by
  have hmem := mem_children_of_mem_declarators hd
  have hof := hp.of_mem_children hmem
  have hform := form_fate t source (kind_of_mem_declarators hd)
  generalize fate t source d = f at he hform
  cases hform with
  | keep | name | pattern => cases he
  | @rebuild pattern removed kept hpattern hremoved hne _ _ htype =>
    cases he
    have hchild := Place.mem_children_of_child? hpattern
    refine ⟨hof, hof.covers_children hw.isLaidOut hchild, ?_,
      ⟨_, .pattern hof (kind_of_mem_declarators hd) hpattern htype, rfl⟩,
      ⟨_, rfl, braced_ne_empty _⟩, .inl ⟨hr, hmem⟩⟩
    obtain ⟨b, hb⟩ := List.exists_mem_of_ne_nil _ hne
    rw [hremoved, mem_removedBindings] at hb
    exact start_lt_of_not_isLeaf hw.isLaidOut hg (hof.of_mem_children hchild)
      (not_isLeaf_of_mem_children
        (Place.mem_children_of_mem_namedChildren (Binding.mem_ofPattern.1 hb.1).1))

/-- An edit deletes a target or rebuilds. -/
theorem Form.edit_cases (h : Form t source p c) (hw : WellFormed source tree)
    (hg : Grammatical tree) (hp : Place.Of tree p) {e : Edit} (he : e ∈ c.edits) :
    (∃ target withSemicolon, IsTarget p target withSemicolon ∧
      c.edits = [deletion source target withSemicolon] ∧ c.replaced = [p]) ∨
    ∃ core, RebuildsIn source tree p c e core := by
  cases h with
  | nothing => cases he
  | function hk _ _ htarget | importStatement hk _ _ htarget =>
    exact .inl ⟨_, _, .statement (by simp [hk]) htarget, rfl, rfl⟩
  | method hk hclass => exact .inl ⟨_, _, .method hk hclass, rfl, rfl⟩
  | declaration hk _ _ _ htarget => exact .inl ⟨_, _, .statement (by simp [hk]) htarget, rfl, rfl⟩
  | clause hk hremoved hne hlen hclause =>
    rw [List.mem_singleton] at he
    subst he
    exact .inr ⟨_, rebuildsIn_clause hw hg hp hk hremoved hne hlen hclause _⟩
  | list hk hkept hne hnames hne' hdrop =>
    rw [List.mem_singleton] at he
    subst he
    exact .inr ⟨p, rebuildsIn_list hw hg hp hk hkept hne hdrop _⟩
  | patterns hk hkept hne hnames hne' hdrop =>
    obtain ⟨f, hf, he⟩ := List.mem_filterMap.1 he
    obtain ⟨hd, hfate⟩ := mem_fates.1 hf
    have hr : f ∈ (fates t source p).filter (·.2.pattern?.isSome) :=
      List.mem_filter.2 ⟨hf, by simp [he]⟩
    rw [hfate] at he
    exact .inr ⟨f.1, rebuildsIn_pattern hw hg hp hd he (List.mem_map_of_mem hr)⟩

end Plan

end Deadwood
