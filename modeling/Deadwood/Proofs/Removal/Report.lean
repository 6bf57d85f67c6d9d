import Deadwood.Proofs.Removal.Assembly
import Deadwood.Proofs.Removal.Generate
import Deadwood.Proofs.Removal.Stake

/-!
What a plan reports. Its names are those of targeted symbols, each named at a place of its own that
an edit takes and that no replacement copies. And each edit is there for a symbol that is reported
(`report_is_exact`).
-/
namespace Deadwood

/-- The keys of the methods of a tree. -/
def Node.methodKeys (tree : Node) : List Node :=
  (tree.preorder.filter (·.kind = .method)).filterMap (·.child? "name")

/-- A string, a number or a computed key does not read like the name of a member. -/
def KeysApart (source : Bytes) (tree : Node) : Prop :=
  ∀ m ∈ tree.methodKeys, Symbol.isMemberName m = true → ∀ n ∈ tree.methodKeys,
    n.text source = m.text source → Symbol.isMemberName n = true

/-- Targets that are symbols of the tree. -/
def Targets.Reported (t : Targets) (source : Bytes) (file : String) (tree : Node) : Prop :=
  ∀ name kind, t.contains name kind = true →
    ∃ s ∈ Symbol.extract source file tree, s.name = name ∧ s.kind = kind

theorem Targets.mem_of_contains {t : Targets} {name : String} {kind : SymbolKind}
    (h : t.contains name kind = true) : (name, kind) ∈ t := by
  rw [Targets.contains, beq_iff_eq, Keyed.get?, Option.map_eq_some_iff] at h
  obtain ⟨⟨name', kind'⟩, hfind, rfl⟩ := h
  have hname := List.find?_some hfind
  rw [decide_eq_true_eq] at hname
  exact hname ▸ List.mem_of_find?_eq_some hfind

theorem Targets.Reported.exists_definition {t : Targets} {source : Bytes} {file : String}
    {tree n : Node} {kind : SymbolKind} (h : t.Reported source file tree)
    (hholds : t.holds source kind n = true) :
    ∃ b ∈ Symbol.definitionsOf source tree, b.1.node.text source = n.text source ∧ b.2 = kind := by
  obtain ⟨s, hs, hname, hkind⟩ := h _ _ hholds
  obtain ⟨b, hb, rfl⟩ := List.mem_map.1 hs
  exact ⟨b, hb, hname, hkind⟩

namespace Plan

/-- What an edit does about a targeted symbol: it deletes the declaration of the symbol, or rebuilds
a part that has its name. -/
inductive Concerns (t : Targets) (source : Bytes) (tree : Node) (b : Place × SymbolKind) :
    Edit → Prop
  | deletes {p target : Place} {withSemicolon : Bool} : Place.Of tree p →
      b ∈ atStake t source p → IsTarget p target withSemicolon →
      Concerns t source tree b (deletion source target withSemicolon)
  | rebuilds {e : Edit} {r : Part} : r.IsRebuilt tree → r.range = e.range →
      r.covers b.1 = true → Concerns t source tree b e

/-- The symbols of a list account for a plan: they are targeted symbols of the tree, distinct and
with the names that the plan reports, the edits take them without a copy, and no edit is there for
anything else. -/
structure Accounts (t : Targets) (source : Bytes) (tree : Node) (plan : Plan)
    (symbols : List (Place × SymbolKind)) : Prop where
  names_eq : plan.names = symbols.map (·.1.node.text source)
  distinct : symbols.Pairwise fun a b => a.1.address ≠ b.1.address
  defined : ∀ b ∈ symbols, b ∈ Symbol.definitionsOf source tree
  targeted : ∀ b ∈ symbols, t.contains (b.1.node.text source) b.2 = true
  taken : ∀ b ∈ symbols, ∃ e ∈ plan.edits, e.start ≤ b.1.node.start ∧ b.1.node.stop ≤ e.stop
  dropped : ∀ e ∈ plan.edits, ∃ slices, Assembles source e.start e.stop slices e.replacement ∧
    ∀ r ∈ slices, ∀ b ∈ symbols, Avoids b.1.node r
  concerned : ∀ e ∈ plan.edits, ∃ b ∈ symbols, Concerns t source tree b e

variable {t : Targets} {source : Bytes} {tree : Node} {p q : Place} {c : Change}
  {b : Place × SymbolKind}

theorem mem_methodKeys {m : Node} (hp : Place.Of tree p) (hk : p.node.kind = .method)
    (hm : p.node.child? "name" = some m) : m ∈ tree.methodKeys :=
  List.mem_filterMap.2 ⟨p.node, List.mem_filter.2 ⟨hp.mem_nodes, by simpa using hk⟩, hm⟩

/-- A method of a class is a symbol if its key reads like that of a reported method. -/
theorem definitions_method {file : String} {name : Place} (hp : Place.Of tree p)
    (hapart : KeysApart source tree) (ht : t.Reported source file tree)
    (hk : p.node.kind = .method) (hclass : p.parentType? = some "class_body")
    (hname : p.child? "name" = some name) (hholds : t.holds source .method name.node = true) :
    Symbol.definitions source p = [(name, .method)] := by
  obtain ⟨b, hb, htext, hkind⟩ := ht.exists_definition hholds
  obtain ⟨q, hq, hb⟩ := Symbol.mem_definitionsOf.1 hb
  obtain ⟨hqk, hqname, hmember, himplicit⟩ := Symbol.definitions_of_method hb hkind
  have key : ∀ {p m}, Place.child? p "name" = some m → p.node.child? "name" = some m.node :=
    fun h => by rw [← Place.child?_node, h, Option.map_some]
  -- The reported method has the name of a member, and this key reads the same.
  have hname' := hapart _ (mem_methodKeys hq hqk (key hqname)) hmember _
    (mem_methodKeys hp hk (key hname)) htext.symm
  unfold Symbol.definitions
  rw [hk]
  dsimp only
  rw [if_pos hclass, hname]
  dsimp only
  rw [if_pos ⟨hname', by simp [← htext, himplicit]⟩]

/-- What a change names is what is at stake. -/
theorem Form.names_eq {file : String} (h : Form t source p c) (hp : Place.Of tree p)
    (hapart : KeysApart source tree) (ht : t.Reported source file tree) :
    c = {} ∨ c.names ≠ [] ∧ c.names = (atStake t source p).map (·.1.node.text source) := by
  by_cases hne : c = {}
  · exact .inl hne
  refine .inr ⟨h.names_ne_nil hne, ?_⟩
  by_cases hk : p.node.kind = .method
  · obtain ⟨name, hclass, hname, hholds, rfl⟩ := h.of_method hk hne
    rw [atStake_singleton (by simp [hk])
      (definitions_method hp hapart ht hk hclass hname hholds) hholds]
    rfl
  · exact h.names_atStake hk hne

/-- Each edit takes a symbol that is at stake. -/
theorem Form.exists_taken {file : String} {e : Edit} (h : Form t source p c)
    (hw : WellFormed source tree) (hp : Place.Of tree p) (hapart : KeysApart source tree)
    (ht : t.Reported source file tree) (he : e ∈ c.edits) :
    ∃ b ∈ atStake t source p, e.start ≤ b.1.node.start ∧ b.1.node.stop ≤ e.stop := by
  by_cases hk : p.node.kind = .method
  · obtain ⟨name, hclass, hname, hholds, rfl⟩ := h.of_method hk (ne_nothing_of_edit he)
    rw [List.mem_singleton] at he
    have hone := atStake_singleton (by simp [hk])
      (definitions_method hp hapart ht hk hclass hname hholds) hholds
    have hb := hone ▸ List.mem_singleton_self _
    obtain ⟨⟨e', he', hin⟩, -⟩ := (IsTarget.method hk hclass).takes hw hp hb
    rw [List.mem_singleton.1 he', ← he] at hin
    exact ⟨_, hb, hin⟩
  · exact h.exists_atStake hw hp hk he

/-- Each edit is there for a symbol at stake. -/
theorem Form.exists_concern {file : String} {e : Edit} (h : Form t source p c)
    (hw : WellFormed source tree) (hg : Grammatical tree) (hp : Place.Of tree p)
    (hapart : KeysApart source tree) (ht : t.Reported source file tree) (he : e ∈ c.edits) :
    ∃ b ∈ atStake t source p, Concerns t source tree b e := by
  obtain ⟨b, hb, hin⟩ := h.exists_taken hw hp hapart ht he
  refine ⟨b, hb, ?_⟩
  rcases h.edit_cases hw hg hp he with ⟨target, sc, htarget, hedits, -⟩ | ⟨core, hcore⟩
  · rw [hedits, List.mem_singleton] at he
    exact he ▸ .deletes hp hb htarget
  · obtain ⟨r, hr, hrange⟩ := hcore.part
    exact .rebuilds hr hrange (by rw [Part.covers, hrange]; exact decide_eq_true hin)

/-- A rebuilt pattern copies nothing of what is at stake. -/
theorem exists_slices_of_patterns (hw : WellFormed source tree) (hc : OnCharacters source tree)
    (hp : Place.Of tree p) (hk : p.node.kind = .variableDeclaration) {d : Place} {e : Edit}
    (hd : d ∈ declarators p) (he : (fate t source d).pattern? = some e) :
    ∃ slices, Assembles source e.start e.stop slices e.replacement ∧
      ∀ r ∈ slices, ∀ b ∈ atStake t source p, Avoids b.1.node r := by
  have hwithin := pattern_within hw hp hd he
  have hof := hp.of_mem_children (mem_children_of_mem_declarators hd)
  have hform := form_fate t source (kind_of_mem_declarators hd)
  generalize fate t source d = f at hform he
  cases hform with
  | keep | name | pattern => cases he
  | rebuild hname hremoved _ htargeted hkept =>
    cases he
    have hpof := hof.of_mem_children (Place.mem_children_of_child? hname)
    obtain ⟨slices, hslices, hall⟩ := exists_slices_of_pattern hw hc hpof hremoved
    rw [← hkept] at hslices
    refine ⟨slices, hslices, fun r hr b hb => ?_⟩
    obtain ⟨d', hd', hb⟩ := (mem_atStake hk).1 hb
    -- Symbols of the same declarator were dropped from the pattern, those of others lie apart.
    by_cases heq : d'.address = d.address
    · rw [(hp.of_mem_children (mem_children_of_mem_declarators hd')).eq_of_address hof heq,
        htargeted] at hb
      obtain ⟨binding, hbinding, rfl⟩ := Symbol.mem_importSymbols.1 hb
      exact hall r hr binding hbinding
    · have hin := hslices.within r hr
      exact (avoids_of_declarator hw hp hd hd' heq hb).mono (hwithin.1.trans hin.1)
        (hin.2.trans hwithin.2)

/-- An edit of a change copies nothing of what is at stake. -/
theorem Form.exists_slices (h : Form t source p c) (hw : WellFormed source tree)
    (hc : OnCharacters source tree) (hp : Place.Of tree p) {e : Edit} (he : e ∈ c.edits) :
    ∃ slices, Assembles source e.start e.stop slices e.replacement ∧
      ∀ r ∈ slices, ∀ b ∈ atStake t source p, Avoids b.1.node r := by
  have hle := (h.fitsIn hw hp he).1
  cases h with
  | nothing => cases he
  | function | method | importStatement | declaration =>
    rw [List.mem_singleton] at he
    subst he
    exact ⟨[], .nil hle, by simp⟩
  | clause hk hremoved _ _ hclause =>
    rw [List.mem_singleton] at he
    subst he
    obtain ⟨slices, hslices, hall⟩ := exists_slices_of_clause hw hc hp hclause hremoved
    refine ⟨slices, hslices, fun r hr b hb => ?_⟩
    rw [atStake_import hk, ← hremoved] at hb
    obtain ⟨binding, hbinding, rfl⟩ := Symbol.mem_importSymbols.1 hb
    exact hall r hr binding hbinding
  | list hk hkept _ hnames hne =>
    rw [List.mem_singleton] at he
    subst he
    have hsome : declarators p ≠ [] := by
      rintro hnone
      simp [hnames, fates, hnone] at hne
    rw [atStake, if_pos hk]
    exact exists_slices_of_list hw hc hp hsome hkept
  | patterns hk =>
    obtain ⟨f, hf, he⟩ := List.mem_filterMap.1 he
    obtain ⟨hd, hfate⟩ := mem_fates.1 hf
    rw [hfate] at he
    exact exists_slices_of_patterns hw hc hp hk hd he

namespace Step

/-- The symbols that a step is about. -/
def symbols (t : Targets) (source : Bytes) (x : Step) : List (Place × SymbolKind) :=
  if x.2.names = [] then [] else atStake t source x.1

theorem mem_symbols {x : Step} (h : b ∈ symbols t source x) :
    x.2 ≠ {} ∧ b ∈ atStake t source x.1 := by
  unfold symbols at h
  split at h
  · cases h
  · next hne =>
    refine ⟨?_, h⟩
    rintro hnone
    simp [hnone] at hne

namespace Later

variable {x y : Step} {e : Edit} {core : Place}

/-- A step and a later one are about different symbols. -/
theorem address_ne (h : Later t source tree x y) (hw : WellFormed source tree) (hx : x.2 ≠ {})
    {b' : Place × SymbolKind} (hb : b ∈ atStake t source x.1) (hb' : b' ∈ atStake t source y.1) :
    b.1.address ≠ b'.1.address := by
  intro heq
  obtain ⟨-, r, hr, hsuffix⟩ := h.form.takes hw h.of_tree hx hb
  have hsuffix' := (atStake_of_tree h.of_tree' hb').2.1
  -- What the earlier step replaced and the later step would lie on one way down.
  rw [heq] at hsuffix
  exact (List.suffix_or_suffix_of_suffix hsuffix hsuffix').elim (h.not_suffix hr)
    (h.not_suffix_replaced hr)

/-- What a later step is about lies outside a rebuilt part. -/
theorem avoids (h : Later t source tree x y) (hw : WellFormed source tree) (hg : Grammatical tree)
    (hcore : RebuildsIn source tree x.1 x.2 e core) (hb : b ∈ atStake t source y.1) :
    Avoids b.1.node ⟨e.start, e.stop⟩ := by
  obtain ⟨hbof, hsuffix, -⟩ := atStake_of_tree h.of_tree' hb
  have hin := hbof.within h.of_tree' hw.isLaidOut hsuffix
  rcases h.core_apart hw hg hcore with hapart | hapart
  · exact .inr ((hcore.within.2.trans hapart).trans hin.1)
  · exact .inl ((hin.2.trans hapart).trans hcore.within.1)

/-- What a step is about lies outside what a later one rebuilds. -/
theorem avoids' (h : Later t source tree x y) (hw : WellFormed source tree) (hx : x.2 ≠ {})
    (hcore : RebuildsIn source tree y.1 y.2 e core) (hb : b ∈ atStake t source x.1) :
    Avoids b.1.node ⟨e.start, e.stop⟩ := by
  obtain ⟨-, r, hr, hsuffix⟩ := h.form.takes hw h.of_tree hx hb
  have hwithin := hcore.within_place hw h.of_tree'
  have hapart := (atStake_of_tree h.of_tree hb).1.apart h.of_tree' hw.isLaidOut
    (fun hle => h.not_suffix hr (hsuffix.trans hle))
    (fun hle => (List.suffix_or_suffix_of_suffix hsuffix hle).elim (h.not_suffix hr)
      (h.not_suffix_replaced hr))
  exact hapart.imp (fun hle => hle.trans hwithin.1) fun hle => hwithin.2.trans hle

end Later

namespace From

variable {s : Progress} {steps : List Step} {x y : Step}

theorem later (h : From t source tree s steps) (hx : x ∈ steps) (hy : y ∈ steps)
    (hxy : Leads x y) (hne : y.2 ≠ {}) : Later t source tree x y where
  of_tree := h.of_tree x hx
  of_tree' := h.of_tree y hy
  form := form_of_change (h.change_eq x hx)
  form' := form_of_change (h.change_eq y hy)
  leads := hxy
  ne_nothing := hne

theorem eq_or_leads (h : From t source tree s steps) (hx : x ∈ steps) (hy : y ∈ steps) :
    x = y ∨ Leads x y ∨ Leads y x := by
  obtain ⟨i, hi, rfl⟩ := List.mem_iff_getElem.1 hx
  obtain ⟨j, hj, rfl⟩ := List.mem_iff_getElem.1 hy
  have hleads := List.pairwise_iff_getElem.1 h.leads
  rcases Nat.lt_trichotomy i j with hij | rfl | hij
  · exact .inr (.inl (hleads i j hi hj hij))
  · exact .inl rfl
  · exact .inr (.inr (hleads j i hj hi hij))

theorem pairwise_symbols (h : From t source tree s steps) (hw : WellFormed source tree) :
    (steps.flatMap (symbols t source)).Pairwise fun a b => a.1.address ≠ b.1.address := by
  rw [List.pairwise_flatMap]
  refine ⟨fun x hx => ?_, h.leads.imp_of_mem ?_⟩
  · unfold symbols
    split
    · exact List.Pairwise.nil
    · refine (pairwise_atStake t source (h.of_tree x hx)).imp ?_
      intro a b hab heq
      exact hab.not_suffix (heq ▸ List.suffix_rfl)
  · intro x y hx hy hxy b hb b' hb'
    obtain ⟨hne, hb⟩ := mem_symbols hb
    obtain ⟨hne', hb'⟩ := mem_symbols hb'
    exact (h.later hx hy hxy hne').address_ne hw hne hb hb'

/-- An edit of a plan copies nothing of what any step is about. -/
theorem exists_slices (h : From t source tree s steps) (hw : WellFormed source tree)
    (hg : Grammatical tree) (hc : OnCharacters source tree) {e : Edit}
    (he : e ∈ steps.flatMap (·.2.edits)) :
    ∃ slices, Assembles source e.start e.stop slices e.replacement ∧
      ∀ r ∈ slices, ∀ b ∈ steps.flatMap (symbols t source), Avoids b.1.node r := by
  obtain ⟨x, hx, he⟩ := List.mem_flatMap.1 he
  have hform := form_of_change (h.change_eq x hx)
  have hof := h.of_tree x hx
  rcases hform.edit_cases hw hg hof he with ⟨target, sc, -, hedits, -⟩ | ⟨core, hcore⟩
  · have hle := (hform.start_lt_edit hw hg hof he).le
    rw [hedits, List.mem_singleton] at he
    subst he
    exact ⟨[], .nil hle, by simp⟩
  · obtain ⟨slices, hslices, hall⟩ := hform.exists_slices hw hc hof he
    refine ⟨slices, hslices, fun r hr b hb => ?_⟩
    obtain ⟨y, hy, hb⟩ := List.mem_flatMap.1 hb
    obtain ⟨hne, hb⟩ := mem_symbols hb
    have hin := hslices.within r hr
    rcases h.eq_or_leads hx hy with rfl | hxy | hyx
    · exact hall r hr b hb
    · exact ((h.later hx hy hxy hne).avoids hw hg hcore hb).mono hin.1 hin.2
    · exact ((h.later hy hx hyx (ne_nothing_of_edit he)).avoids' hw hne hcore hb).mono hin.1 hin.2

theorem names_eq {file : String} (h : From t source tree s steps)
    (hapart : KeysApart source tree) (ht : t.Reported source file tree) (hx : x ∈ steps) :
    x.2.names = (symbols t source x).map (·.1.node.text source) := by
  rcases (form_of_change (h.change_eq x hx)).names_eq (h.of_tree x hx) hapart ht with
    hnone | ⟨hne, hnames⟩
  · simp [symbols, hnone]
  · rw [symbols, if_neg hne, hnames]

/-- An edit of a plan is there for a symbol that a step is about. -/
theorem exists_concern {file : String} (h : From t source tree s steps)
    (hw : WellFormed source tree) (hg : Grammatical tree) (hapart : KeysApart source tree)
    (ht : t.Reported source file tree) {e : Edit} (he : e ∈ steps.flatMap (·.2.edits)) :
    ∃ b ∈ steps.flatMap (symbols t source), Concerns t source tree b e := by
  obtain ⟨x, hx, he⟩ := List.mem_flatMap.1 he
  have hform := form_of_change (h.change_eq x hx)
  have hof := h.of_tree x hx
  obtain ⟨b, hb, hconcerns⟩ := hform.exists_concern hw hg hof hapart ht he
  rcases hform.names_eq hof hapart ht with hnothing | ⟨hne, -⟩
  · simp [hnothing] at he
  · exact ⟨b, List.mem_flatMap.2 ⟨x, hx, by rwa [symbols, if_neg hne]⟩, hconcerns⟩

/-- The symbols that the steps are about account for the plan that they make. -/
theorem accounts {file : String} (h : From t source tree {} steps) (hw : WellFormed source tree)
    (hc : OnCharacters source tree) (hg : Grammatical tree) (hapart : KeysApart source tree)
    (ht : t.Reported source file tree) :
    Accounts t source tree (run {} steps).plan (steps.flatMap (symbols t source)) where
  names_eq := by
    rw [names_run, List.nil_append, List.map_flatMap]
    exact List.flatMap_congr fun x hx => h.names_eq hapart ht hx
  distinct := h.pairwise_symbols hw
  defined b hb := by
    obtain ⟨x, hx, hb⟩ := List.mem_flatMap.1 hb
    exact (atStake_of_tree (h.of_tree x hx) (mem_symbols hb).2).2.2.1
  targeted b hb := by
    obtain ⟨x, hx, hb⟩ := List.mem_flatMap.1 hb
    exact (atStake_of_tree (h.of_tree x hx) (mem_symbols hb).2).2.2.2
  taken b hb := by
    obtain ⟨x, hx, hb⟩ := List.mem_flatMap.1 hb
    obtain ⟨hne, hb⟩ := mem_symbols hb
    obtain ⟨⟨e, he, hin⟩, -⟩ := (form_of_change (h.change_eq x hx)).takes hw (h.of_tree x hx) hne hb
    rw [edits_run, List.nil_append]
    exact ⟨e, List.mem_flatMap.2 ⟨x, hx, he⟩, hin⟩
  dropped e he := by
    rw [edits_run, List.nil_append] at he
    exact h.exists_slices hw hg hc he
  concerned e he := by
    rw [edits_run, List.nil_append] at he
    exact h.exists_concern hw hg hapart ht he

end From

end Step

/-- A plan for symbols of the tree reports what it removes: it counts the names, each is that of a
targeted symbol which an edit takes and no replacement copies, each edit is there for one of them,
and without names there are no edits. -/
theorem report_is_exact (t : Targets) (source : Bytes) (file : String) (tree : Node)
    (hw : WellFormed source tree) (hc : OnCharacters source tree) (hg : Grammatical tree)
    (hapart : KeysApart source tree) (ht : t.Reported source file tree) :
    ∃ plan, ofTree t source tree = .ok plan ∧ plan.nodesRemoved = plan.names.length ∧
      (∃ symbols, Accounts t source tree plan symbols) ∧ (plan.names = [] → plan.edits = []) := by
  obtain ⟨plan, hplan⟩ := exists_plan t hw hc
  refine ⟨plan, hplan, nodesRemoved_eq hplan, ?_⟩
  obtain ⟨steps, rfl, hsteps⟩ := exists_steps hplan
  have haccounts := hsteps.accounts hw hc hg hapart ht
  refine ⟨⟨_, haccounts⟩, fun hnone => List.eq_nil_iff_forall_not_mem.2 fun e he => ?_⟩
  -- An edit would be there for a symbol, and that has a name.
  obtain ⟨b, hb, -⟩ := haccounts.concerned e he
  rw [haccounts.names_eq, List.map_eq_nil_iff] at hnone
  rw [hnone] at hb
  cases hb

theorem reported_sample : Sample.targets.Reported Sample.source "a.js" Sample.tree := by
  intro name kind h
  have hmem : (name, kind) ∈ Sample.targets := Targets.mem_of_contains h
  have hall : ∀ d ∈ Sample.targets, ∃ s ∈ Symbol.extract Sample.source "a.js" Sample.tree,
      s.name = d.1 ∧ s.kind = d.2 := by decide +kernel
  exact hall _ hmem

theorem report_is_exact_sample :
    ∃ plan, ofTree Sample.targets Sample.source Sample.tree = .ok plan ∧
      plan.nodesRemoved = plan.names.length ∧
      (∃ symbols, Accounts Sample.targets Sample.source Sample.tree plan symbols) ∧
      (plan.names = [] → plan.edits = []) :=
  report_is_exact Sample.targets Sample.source "a.js" Sample.tree Sample.wellFormed
    Sample.onCharacters Sample.grammatical (by unfold KeysApart; decide +kernel) reported_sample

/-- A default export stays and is not reported. -/
example : ofTree [("f", .function)] (Utf8.encode "export default function f() \x7b\x7d")
    (Sample.node "program" none 0 30 [Sample.node "export_statement" none 0 30
      [Sample.token "export" 0 6, Sample.token "default" 7 14,
        Sample.node "function_declaration" (some "declaration") 15 30
          [Sample.token "function" 15 23, Sample.node "identifier" (some "name") 24 25 []]]]) =
    .ok {} := by
  decide +kernel

end Plan

end Deadwood
