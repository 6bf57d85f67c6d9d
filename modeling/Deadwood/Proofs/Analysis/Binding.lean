import Deadwood.Analysis.Symbol
import Deadwood.Proofs.Syntax.Address

/-!
Bindings of patterns and imports. A binding has its name in its part, and the names follow one
another in document order. Parts do so too, save where a namespace has several names.
-/
namespace Deadwood

namespace Place

variable {tree : Node} {p q r : Place}

theorem namedChildren_nodes (p : Place) :
    p.namedChildren.map (·.node) = p.node.namedChildren := by
  rw [namedChildren, Node.namedChildren, ← children_nodes, List.filter_map]
  rfl

/-- One place is not below two children. -/
theorem Of.eq_of_children (hp : Of tree p) {a : Address} (hq : q ∈ p.children)
    (hr : r ∈ p.children) (hqa : q.address <:+ a) (hra : r.address <:+ a) : q = r := by
  obtain ⟨i, hi⟩ := address_of_mem_children hq
  obtain ⟨j, hj⟩ := address_of_mem_children hr
  refine (hp.of_mem_children hq).eq_of_address (hp.of_mem_children hr) ?_
  rw [hi] at hqa
  rw [hj] at hra
  rw [hi, hj, Address.eq_of_cons_suffix hqa hra]

theorem pairwise_namedChildren (p : Place) :
    p.namedChildren.Pairwise fun a b => Address.Before a.address b.address :=
  p.pairwise_children.sublist List.filter_sublist

end Place

namespace Binding

variable {tree : Node} {p : Place} {b b' : Binding}

theorem ofProperty?_eq_some (h : ofProperty? p = some b) :
    b.part = p ∧ (b.name = p ∨ b.name ∈ p.children) := by
  unfold ofProperty? at h
  split at h
  · cases h
    exact ⟨rfl, .inl rfl⟩
  · obtain ⟨value, hvalue, h⟩ := Option.bind_eq_some_iff.1 h
    obtain ⟨-, -, h⟩ := Option.bind_eq_some_iff.1 h
    cases h
    exact ⟨rfl, .inr (Place.mem_children_of_child? hvalue)⟩
  · obtain ⟨left, hleft, h⟩ := Option.bind_eq_some_iff.1 h
    obtain ⟨-, -, h⟩ := Option.bind_eq_some_iff.1 h
    cases h
    exact ⟨rfl, .inr (Place.mem_children_of_child? hleft)⟩
  · cases h

theorem ofSpecifier?_eq_some (h : ofSpecifier? p = some b) :
    b.part = p ∧ p.node.type = "import_specifier" ∧ b.name ∈ p.children := by
  unfold ofSpecifier? at h
  obtain ⟨u, htype, h⟩ := Option.bind_eq_some_iff.1 h
  obtain ⟨name, hname, h⟩ := Option.bind_eq_some_iff.1 h
  cases h
  refine ⟨rfl, ?_, ?_⟩
  · by_contra hne
    rw [guard, if_neg hne] at htype
    cases htype
  · rcases Option.or_eq_some_iff.1 hname with hname | ⟨-, hname⟩
    · exact Place.mem_children_of_child? hname
    · exact Place.mem_children_of_child? hname

/-- The bindings of one part of a clause, by the type of the part. -/
theorem mem_ofClausePart : b ∈ ofClausePart p ↔
    p.node.type = "identifier" ∧ b = ⟨p, p⟩ ∨
    p.node.type = "namespace_import" ∧ b.part = p ∧ b.name ∈ p.namedChildren ∧
      b.name.node.type = "identifier" ∨
    p.node.type = "named_imports" ∧ b.part ∈ p.namedChildren ∧ ofSpecifier? b.part = some b := by
  unfold ofClausePart
  have other : ∀ {a a' : String} {Q : Prop}, p.node.type = a → p.node.type = a' → a ≠ a' → Q :=
    fun h h' hne => absurd (h.symm.trans h') hne
  split
  · next htype =>
    rw [List.mem_singleton]
    constructor
    · exact fun h => .inl ⟨htype, h⟩
    · rintro (⟨-, h⟩ | ⟨h, -⟩ | ⟨h, -⟩)
      · exact h
      · exact other htype h (by decide)
      · exact other htype h (by decide)
  · next htype =>
    obtain ⟨name, part⟩ := b
    simp only [List.mem_map, List.mem_filter, decide_eq_true_eq, Binding.mk.injEq]
    constructor
    · rintro ⟨n, hn, rfl, rfl⟩
      exact .inr (.inl ⟨htype, rfl, hn⟩)
    · rintro (⟨h, -⟩ | ⟨-, rfl, hn⟩ | ⟨h, -⟩)
      · exact other htype h (by decide)
      · exact ⟨name, hn, rfl, rfl⟩
      · exact other htype h (by decide)
  · next htype =>
    rw [List.mem_filterMap]
    constructor
    · rintro ⟨s, hs, hb⟩
      obtain rfl := (ofSpecifier?_eq_some hb).1
      exact .inr (.inr ⟨htype, hs, hb⟩)
    · rintro (⟨h, -⟩ | ⟨h, -⟩ | ⟨-, hs, hb⟩)
      · exact other htype h (by decide)
      · exact other htype h (by decide)
      · exact ⟨b.part, hs, hb⟩
  · next h1 h2 h3 =>
    constructor
    · intro h
      cases h
    · rintro (⟨h, -⟩ | ⟨h, -⟩ | ⟨h, -⟩)
      · exact absurd h h1
      · exact absurd h h2
      · exact absurd h h3

theorem mem_ofImport {statement : Place} : b ∈ ofImport statement ↔
    ∃ clause part, clause? statement = some clause ∧ part ∈ clause.namedChildren ∧
      b ∈ ofClausePart part := by
  unfold ofImport
  split
  · next h => simp [h]
  · next clause h => simp [h]

/-- The name lies at or below the part. -/
theorem ofProperty?_of_tree (hp : Place.Of tree p) (h : ofProperty? p = some b) :
    Place.Of tree b.name ∧ p.address <:+ b.name.address := by
  rcases (ofProperty?_eq_some h).2 with hname | hname
  · rw [hname]
    exact ⟨hp, List.suffix_rfl⟩
  · exact ⟨hp.of_mem_children hname, Place.suffix_of_mem_children hname⟩

theorem mem_ofPattern :
    b ∈ ofPattern p ↔ b.part ∈ p.namedChildren ∧ ofProperty? b.part = some b := by
  rw [ofPattern, List.mem_filterMap]
  constructor
  · rintro ⟨property, hproperty, hb⟩
    obtain rfl := (ofProperty?_eq_some hb).1
    exact ⟨hproperty, hb⟩
  · rintro ⟨hproperty, hb⟩
    exact ⟨b.part, hproperty, hb⟩

theorem ofPattern_of_tree (hp : Place.Of tree p) (h : b ∈ ofPattern p) :
    Place.Of tree b.part ∧ Place.Of tree b.name ∧ b.part.address <:+ b.name.address := by
  obtain ⟨hpart, hb⟩ := mem_ofPattern.1 h
  have hof := hp.of_mem_children (Place.mem_children_of_mem_namedChildren hpart)
  exact ⟨hof, ofProperty?_of_tree hof hb⟩

theorem ofPattern_below (hp : Place.Of tree p) (h : b ∈ ofPattern p) :
    Place.Of tree b.name ∧ p.address <:+ b.name.address := by
  obtain ⟨-, hname, hsuffix⟩ := ofPattern_of_tree hp h
  have hpart := Place.mem_children_of_mem_namedChildren (mem_ofPattern.1 h).1
  exact ⟨hname, (Place.suffix_of_mem_children hpart).trans hsuffix⟩

theorem pairwise_ofPattern (p : Place) :
    (ofPattern p).Pairwise fun a b => Address.Before a.name.address b.name.address := by
  rw [ofPattern, List.pairwise_filterMap]
  refine (Place.pairwise_namedChildren p).imp ?_
  intro q q' hq b hb b' hb'
  have suffix_name : ∀ {q : Place} {b}, ofProperty? q = some b → q.address <:+ b.name.address := by
    intro q b hb
    rcases (ofProperty?_eq_some hb).2 with hname | hname
    · rw [hname]
    · exact Place.suffix_of_mem_children hname
  exact hq.mono (suffix_name hb) (suffix_name hb')

theorem ofClausePart_suffix (h : b ∈ ofClausePart p) :
    p.address <:+ b.part.address ∧ b.part.address <:+ b.name.address := by
  rcases mem_ofClausePart.1 h with ⟨-, rfl⟩ | ⟨-, hpart, hname, -⟩ | ⟨-, hpart, hb⟩
  · exact ⟨List.suffix_rfl, List.suffix_rfl⟩
  · rw [hpart]
    exact ⟨List.suffix_rfl,
      Place.suffix_of_mem_children (Place.mem_children_of_mem_namedChildren hname)⟩
  · exact ⟨Place.suffix_of_mem_children (Place.mem_children_of_mem_namedChildren hpart),
      Place.suffix_of_mem_children (ofSpecifier?_eq_some hb).2.2⟩

theorem ofClausePart_of_tree (hp : Place.Of tree p) (h : b ∈ ofClausePart p) :
    Place.Of tree b.part ∧ Place.Of tree b.name := by
  rcases mem_ofClausePart.1 h with ⟨-, rfl⟩ | ⟨-, hpart, hname, -⟩ | ⟨-, hpart, hb⟩
  · exact ⟨hp, hp⟩
  · exact ⟨hpart ▸ hp, hp.of_mem_children (Place.mem_children_of_mem_namedChildren hname)⟩
  · have hof := hp.of_mem_children (Place.mem_children_of_mem_namedChildren hpart)
    exact ⟨hof, hof.of_mem_children (ofSpecifier?_eq_some hb).2.2⟩

theorem pairwise_ofClausePart (p : Place) :
    (ofClausePart p).Pairwise fun a b => Address.Before a.name.address b.name.address := by
  unfold ofClausePart
  split
  · exact List.pairwise_singleton _ _
  · rw [List.pairwise_map]
    exact (Place.pairwise_namedChildren p).sublist List.filter_sublist
  · rw [List.pairwise_filterMap]
    refine (Place.pairwise_namedChildren p).imp ?_
    intro q q' hq b hb b' hb'
    exact hq.mono (Place.suffix_of_mem_children (ofSpecifier?_eq_some hb).2.2)
      (Place.suffix_of_mem_children (ofSpecifier?_eq_some hb').2.2)
  · exact List.Pairwise.nil

theorem pairwise_ofImport (statement : Place) :
    (ofImport statement).Pairwise fun a b => Address.Before a.name.address b.name.address := by
  unfold ofImport
  split
  · exact List.Pairwise.nil
  · next clause _ =>
    rw [List.pairwise_flatMap]
    refine ⟨fun part _ => pairwise_ofClausePart part, ?_⟩
    refine (Place.pairwise_namedChildren clause).imp ?_
    intro part part' hpart b hb b' hb'
    have h := ofClausePart_suffix hb
    have h' := ofClausePart_suffix hb'
    exact hpart.mono (h.1.trans h.2) (h'.1.trans h'.2)

theorem mem_children_of_clause? {statement clause : Place} (h : clause? statement = some clause) :
    clause ∈ statement.children :=
  Place.mem_children_of_mem_namedChildren (List.mem_of_find?_eq_some h)

/-- The bindings of an import lie below its clause. -/
theorem ofImport_below {statement clause : Place} (hs : Place.Of tree statement)
    (hclause : clause? statement = some clause) (h : b ∈ ofImport statement) :
    Place.Of tree b.name ∧ clause.address <:+ b.name.address := by
  obtain ⟨clause', part, hclause', hpart, hb⟩ := mem_ofImport.1 h
  rw [hclause, Option.some.injEq] at hclause'
  subst hclause'
  have hpart := Place.mem_children_of_mem_namedChildren hpart
  have hof := (hs.of_mem_children (mem_children_of_clause? hclause)).of_mem_children hpart
  have hsuffix := ofClausePart_suffix hb
  exact ⟨(ofClausePart_of_tree hof hb).2,
    (Place.suffix_of_mem_children hpart).trans (hsuffix.1.trans hsuffix.2)⟩

/-- A part belongs to one binding, where a namespace has one name. -/
theorem eq_of_part {statement : Place} (hs : Place.Of tree statement)
    (hone : ∀ q, Place.Of tree q → q.node.type = "namespace_import" →
      (q.node.namedChildren.filter (·.type = "identifier")).length ≤ 1)
    (hb : b ∈ ofImport statement) (hb' : b' ∈ ofImport statement)
    (h : b.part.address = b'.part.address) : b = b' := by
  obtain ⟨clause, q, hclause, hq, hb⟩ := mem_ofImport.1 hb
  obtain ⟨clause', q', hclause', hq', hb'⟩ := mem_ofImport.1 hb'
  rw [hclause, Option.some.injEq] at hclause'
  subst hclause'
  have hc := hs.of_mem_children (mem_children_of_clause? hclause)
  -- One child of the clause holds the part of both.
  have hqq : q = q' := hc.eq_of_children (Place.mem_children_of_mem_namedChildren hq)
    (Place.mem_children_of_mem_namedChildren hq') (h ▸ (ofClausePart_suffix hb).1)
    (ofClausePart_suffix hb').1
  subst hqq
  have hof := hc.of_mem_children (Place.mem_children_of_mem_namedChildren hq)
  have hpart := (ofClausePart_of_tree hof hb).1.eq_of_address (ofClausePart_of_tree hof hb').1 h
  unfold ofClausePart at hb hb'
  split at hb
  · next htype =>
    simp only [htype, List.mem_singleton] at hb hb'
    rw [hb, hb']
  · next htype =>
    simp only [htype] at hb'
    obtain ⟨n, hn, rfl⟩ := List.mem_map.1 hb
    obtain ⟨n', hn', rfl⟩ := List.mem_map.1 hb'
    have hle := hone q hof htype
    rw [← Place.namedChildren_nodes, List.filter_map, List.length_map] at hle
    obtain ⟨i, hi, rfl⟩ := List.mem_iff_getElem.1 hn
    obtain ⟨j, hj, rfl⟩ := List.mem_iff_getElem.1 hn'
    simp only [Function.comp_def] at hle
    obtain rfl : i = j := by omega
    rfl
  · next htype =>
    simp only [htype] at hb'
    obtain ⟨s, -, hs⟩ := List.mem_filterMap.1 hb
    obtain ⟨s', -, hs'⟩ := List.mem_filterMap.1 hb'
    rw [(ofSpecifier?_eq_some hs).1, (ofSpecifier?_eq_some hs').1] at hpart
    rw [hpart, hs'] at hs
    exact (Option.some.inj hs).symm
  · cases hb

end Binding

end Deadwood
