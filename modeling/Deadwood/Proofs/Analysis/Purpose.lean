import Deadwood.Proofs.Analysis.Declaration
import Deadwood.Proofs.Syntax.Address
import Mathlib.Tactic.CasesM

/-!
What an identifier is there for: to declare a name, to label a statement, to name such a label or to
be written to. A name in a pattern is there for what the whole pattern is there for, so the purpose
is given by the nearest node above that is no such pattern. Purposes exclude each other
(`Place.serves_unique`), and what counts as a declaration has one of them, attributes of an import
apart (`Placed.existsUnique_serves`).
-/
namespace Deadwood

/-- A key is a name that an object gives to a property, or a module to what it exports. -/
inductive Purpose
  | binding
  | member
  | key
  | label
  | jump
  | write
  deriving DecidableEq, Repr

namespace Node

variable {n : Node} {field : Option String} {u v : Purpose}

def has (n : Node) (field : String) : Bool := (n.child? field).isSome

/-- Types of functions, classes and declarators, which bind their names. -/
def bindsName (type : String) : Bool :=
  type = "function_declaration" || type = "generator_function_declaration" ||
    type = "function_expression" || type = "function" || type = "generator_function" ||
    type = "class_declaration" || type = "class" || type = "variable_declarator"

/-- Types of nodes that bind all names right below. -/
def listsBindings (type : String) : Bool :=
  type = "formal_parameters" || type = "import_clause" || type = "namespace_import" ||
    type = "import_require_clause"

def isParameter (type : String) : Bool :=
  type = "required_parameter" || type = "optional_parameter"

/-- What a node gives the name in one of its fields to. -/
def gives (n : Node) (field : Option String) : Purpose → Bool
  | .binding =>
    listsBindings n.type || (bindsName n.type && field = some "name") ||
      (isParameter n.type && (field = some "pattern" || field = some "name")) ||
      ((n.type = "arrow_function" || n.type = "catch_clause") && field = some "parameter") ||
      (n.type = "for_in_statement" && field = some "left" && n.has "kind") ||
      (n.type = "import_specifier" &&
        (field = some "alias" || (field = some "name" && ! n.has "alias")))
  | .member =>
    ((n.type = "method_definition" || n.type = "public_field_definition") &&
      field = some "name") || (n.type = "field_definition" && field = some "property")
  | .key =>
    ((n.type = "pair" || n.type = "pair_pattern") && field = some "key") ||
      (n.type = "import_specifier" && field = some "name" && n.has "alias")
  | .label => n.type = "labeled_statement" && field = some "label"
  | .jump =>
    (n.type = "break_statement" || n.type = "continue_statement") && field = some "label"
  | .write =>
    field = some "left" &&
      (n.type = "assignment_expression" || n.type = "augmented_assignment_expression" ||
        (n.type = "for_in_statement" && ! n.has "kind"))

/-- Whether a name in that field is there for what the node is there for. -/
def passesOn (n : Node) (field : Option String) : Bool :=
  n.type = "object_pattern" || n.type = "array_pattern" || n.type = "rest_pattern" ||
    n.type = "parenthesized_expression" || (n.type = "pair_pattern" && field = some "value") ||
    ((n.type = "assignment_pattern" || n.type = "object_assignment_pattern") &&
      field = some "left")

/-- No field gives a name for two purposes. -/
theorem gives_unique (h : n.gives field u = true) (h' : n.gives field v = true) : u = v := by
  cases u <;> cases v <;> grind [gives, bindsName, listsBindings, isParameter]

theorem not_passesOn_of_gives (h : n.gives field u = true) : n.passesOn field = false := by
  by_contra hpasses
  -- Types that pass names on give none themselves, but for the key of a pair.
  simp only [Bool.not_eq_false, passesOn, Bool.or_eq_true, Bool.and_eq_true,
    decide_eq_true_eq] at hpasses
  casesm* _ ∨ _ <;> cases u <;> grind [gives, bindsName, listsBindings, isParameter]

theorem gives_of_specifier (htype : n.type = "import_specifier")
    (hfield : field = some "name" ∨ field = some "alias") :
    n.gives field .binding = true ∨ n.gives field .key = true := by
  rcases hfield with hname | halias
  · cases hhas : n.has "alias" with
    | true => exact .inr (by simp [gives, htype, hname, hhas])
    | false => exact .inl (by simp [gives, htype, hname, hhas])
  · exact .inl (by simp [gives, htype, halias])

/-- What the fields that count as declarations give names to, patterns with a default apart. -/
theorem gives_of_isDeclarationField (h : Reference.isDeclarationField n.type field = true) :
    n.type = "assignment_pattern" ∧ field = some "left" ∨
      (n.gives field .binding = true ∨ n.gives field .member = true) ∨ field ≠ some "name" ∧
        (n.gives field .key = true ∨ n.gives field .label = true ∨ n.gives field .jump = true) := by
  cases field with
  | none => cases h
  | some field =>
    have hmem := List.contains_iff_mem.1 h
    simp only [Reference.declarationFields, List.mem_cons, List.not_mem_nil, or_false,
      Prod.mk.injEq] at hmem
    casesm* _ ∨ _ <;> grind [gives, bindsName, isParameter]

end Node

namespace Place

variable {tree : Node} {p a : Place} {u v : Purpose}

/-- The nearest node above that a name is not passed on to from, with the field that it is in. -/
def hostFrom (field : Option String) : List Node → Option (Node × Option String)
  | [] => none
  | n :: rest => if n.passesOn field then hostFrom n.field rest else some (n, field)

def host? (p : Place) : Option (Node × Option String) := hostFrom p.node.field p.ancestors

def serves (p : Place) (u : Purpose) : Bool := p.host?.any fun h => h.1.gives h.2 u

theorem serves_unique (h : p.serves u = true) (h' : p.serves v = true) : u = v := by
  unfold serves at h h'
  cases hhost : p.host? with
  | none => simp [hhost] at h
  | some host =>
    rw [hhost, Option.any_some] at h h'
    exact Node.gives_unique h h'

theorem host?_of_parent (ha : p.parent? = some a) : p.host? =
    if a.node.passesOn p.node.field then a.host? else some (a.node, p.node.field) := by
  obtain ⟨m, above⟩ := p
  cases above with
  | nil => cases ha
  | cons b rest =>
    cases ha
    rfl

theorem serves_of_gives (ha : p.parent? = some a)
    (h : a.node.gives p.node.field u = true) : p.serves u = true := by
  rw [serves, host?_of_parent ha, if_neg (by simp [Node.not_passesOn_of_gives h]), Option.any_some]
  exact h

theorem serves_of_passesOn (ha : p.parent? = some a)
    (h : a.node.passesOn p.node.field = true) : p.serves u = a.serves u := by
  rw [serves, host?_of_parent ha, if_pos h, serves]

theorem parent?_of_mem_children {c : Place} (h : c ∈ p.children) : c.parent? = some p := by
  obtain ⟨i, n, -, rfl⟩ := mem_children.1 h
  rfl

/-- The attributes of an import hold values, and a value may be read there. -/
def isInAttributes (p : Place) : Bool := p.ancestors.any (·.type = "import_attribute")

end Place

namespace Binding

variable {p pattern : Place} {b : Binding}

theorem serves_ofPattern (hp : p.node.type = "variable_declarator")
    (hname : p.child? "name" = some pattern) (htype : pattern.node.type = "object_pattern")
    (hb : b ∈ ofPattern pattern) : b.name.serves .binding = true := by
  have hpattern : pattern.serves .binding = true := by
    refine Place.serves_of_gives
      (Place.parent?_of_mem_children (Place.mem_children_of_child? hname)) ?_
    simp [Node.gives, Node.bindsName, hp, Place.field_of_child? hname]
  obtain ⟨property, hproperty, hb⟩ := List.mem_filterMap.1 hb
  have hserves : property.serves .binding = true := by
    rw [Place.serves_of_passesOn (Place.parent?_of_mem_children
      (Place.mem_children_of_mem_namedChildren hproperty)) (by simp [Node.passesOn, htype])]
    exact hpattern
  have below : ∀ {field}, property.child? field = some b.name →
      property.node.passesOn (some field) = true → b.name.serves .binding = true := by
    intro field hchild hpasses
    rw [← Place.field_of_child? hchild] at hpasses
    rw [Place.serves_of_passesOn
      (Place.parent?_of_mem_children (Place.mem_children_of_child? hchild)) hpasses]
    exact hserves
  rcases ofProperty?_cases hb with ⟨-, hname⟩ | ⟨htype, hvalue, -⟩ | ⟨htype, hleft, -⟩
  · exact hname ▸ hserves
  · exact below hvalue (by simp [Node.passesOn, htype])
  · exact below hleft (by simp [Node.passesOn, htype])

/-- The local name of a specifier is its alias, or its name for want of one. -/
theorem serves_ofSpecifier (h : ofSpecifier? p = some b) : b.name.serves .binding = true := by
  obtain ⟨-, htype, hchild⟩ := ofSpecifier?_eq_some h
  refine Place.serves_of_gives (Place.parent?_of_mem_children hchild) ?_
  unfold ofSpecifier? at h
  obtain ⟨-, -, h⟩ := Option.bind_eq_some_iff.1 h
  obtain ⟨name, hname, h⟩ := Option.bind_eq_some_iff.1 h
  obtain rfl := Option.some.inj h
  rcases Option.or_eq_some_iff.1 hname with halias | ⟨hnone, hname⟩
  · simp [Node.gives, htype, Place.field_of_child? halias]
  · simp [Node.gives, htype, Place.field_of_child? hname, Node.has, ← Place.child?_node, hnone]

theorem serves_ofImport (h : b ∈ ofImport p) : b.name.serves .binding = true := by
  obtain ⟨clause, part, hclause, hpart, hb⟩ := mem_ofImport.1 h
  have htype : clause.node.type = "import_clause" := by simpa using List.find?_some hclause
  rcases mem_ofClausePart.1 hb with ⟨-, rfl⟩ | ⟨hnamespace, -, hname, -⟩ | ⟨-, -, hb⟩
  · refine Place.serves_of_gives
      (Place.parent?_of_mem_children (Place.mem_children_of_mem_namedChildren hpart)) ?_
    simp [Node.gives, Node.listsBindings, htype]
  · refine Place.serves_of_gives
      (Place.parent?_of_mem_children (Place.mem_children_of_mem_namedChildren hname)) ?_
    simp [Node.gives, Node.listsBindings, hnamespace]
  · exact serves_ofSpecifier hb

end Binding

/-- The name field of what declares is a binding or a member. -/
theorem Place.serves_of_name {p c : Place} (hc : p.child? "name" = some c)
    (h : Reference.isDeclarationField p.node.type (some "name") = true) :
    c.serves .binding = true ∨ c.serves .member = true := by
  have hparent := parent?_of_mem_children (mem_children_of_child? hc)
  have hfield := field_of_child? hc
  rw [← hfield] at h
  rcases Node.gives_of_isDeclarationField h with ⟨-, hleft⟩ | hgives | ⟨hother, -⟩
  · exact absurd (hfield.symm.trans hleft) (by decide)
  · exact hgives.imp (serves_of_gives hparent) (serves_of_gives hparent)
  · exact absurd hfield hother

/-- What is defined is a binding or a member. -/
theorem Symbol.serves_of_definition {source : Bytes} {p : Place} {b : Place × SymbolKind}
    (h : b ∈ definitions source p) :
    b.1.serves .binding = true ∨ b.1.serves .member = true := by
  rcases definitions_shapes h with
    ⟨hname, hfield⟩ | ⟨pattern, c, hp, hname, htype, hc, hb⟩ | ⟨c, hc, -, hb⟩
  · exact Place.serves_of_name hname hfield
  · exact .inl (hb ▸ Binding.serves_ofPattern hp hname htype hc)
  · exact .inl (hb ▸ Binding.serves_ofImport hc)

/-- What destructures, the parts of it and the shorthand names in it. -/
def Node.isPattern (n : Node) : Bool :=
  n.type = "shorthand_property_identifier_pattern" || n.type = "object_pattern" ||
    n.type = "array_pattern" || n.type = "rest_pattern" || n.type = "pair_pattern" ||
    n.type = "assignment_pattern" || n.type = "object_assignment_pattern"

/-- Where the grammar has patterns and the names of an import. A pattern is part of another one, or
it is declared or assigned to; an import names things in its clause and nowhere else, but for its
attributes. -/
@[mk_iff]
structure Placed (tree : Node) : Prop where
  pattern : ∀ p ∈ Place.preorder tree, p.node.isPattern = true → ∃ a ∈ p.parent?,
    a.node.isPattern = true ∧ a.node.passesOn p.node.field = true ∨
      a.node.gives p.node.field .binding = true ∨ a.node.gives p.node.field .write = true
  imported : ∀ p ∈ Reference.identifiers tree,
    p.ancestors.any (·.type = "import_statement") = true → p.isInAttributes = false →
    ∃ a ∈ p.parent?, Node.listsBindings a.node.type = true ∨ a.node.type = "import_specifier" ∧
      (p.node.field = some "name" ∨ p.node.field = some "alias")

instance (tree : Node) : Decidable (Placed tree) := decidable_of_iff _ (placed_iff tree).symm

namespace Reference

variable {p : Place}

theorem any_import_of_isInImport {ancestors : List Node} (h : isInImport ancestors = true) :
    ancestors.any (·.type = "import_statement") = true := by
  induction ancestors with
  | nil => cases h
  | cons n rest ih =>
    simp only [isInImport, Bool.or_eq_true, Bool.and_eq_true] at h
    rw [List.any_cons, Bool.or_eq_true]
    exact h.imp_right fun h => ih h.2

/-- What makes an identifier count as a declaration. -/
theorem isBinding_cases (h : isBinding p = true) :
    p.node.type = "shorthand_property_identifier_pattern" ∨ ∃ a, p.parent? = some a ∧
      (isDeclarationField a.node.type p.node.field = true ∨ a.node.type = "formal_parameters" ∨
        a.node.type = "assignment_expression" ∧ p.node.field = some "left" ∨
        p.ancestors.any (·.type = "import_statement") = true) := by
  obtain ⟨n, above⟩ := p
  cases above with
  | nil => simpa [isBinding, Place.parentType?, Place.parent?] using h
  | cons b rest =>
    simp only [isBinding, Place.parentType?, Place.parent?, Option.map_some, Bool.or_eq_true,
      Bool.and_eq_true, holdsBindings, decide_eq_true_eq] at h
    refine h.imp_right fun h => ⟨_, rfl, ?_⟩
    rcases h with ((hfield | hparameter | hstatement) | hleft) | himport
    · exact .inl hfield
    · exact .inr (.inl hparameter)
    · exact .inr (.inr (.inr (by simp [Place.ancestors, hstatement])))
    · exact .inr (.inr (.inl hleft))
    · exact .inr (.inr (.inr (any_import_of_isInImport himport)))

end Reference

namespace Placed

variable {tree : Node} {p a : Place}

theorem pattern_serves (h : Placed tree) (hp : Place.Of tree p) (htype : p.node.isPattern = true) :
    p.serves .binding = true ∨ p.serves .write = true := by
  induction hp with
  | top =>
    obtain ⟨a, ha, -⟩ := h.pattern _ (Place.mem_preorder.2 .top) htype
    cases ha
  | @child p i n hp hi ih =>
    obtain ⟨a, ha, hplaced⟩ := h.pattern _ (Place.mem_preorder.2 (hp.child hi)) htype
    cases ha
    rcases hplaced with ⟨hpattern, hpasses⟩ | hgives | hgives
    · rw [Place.serves_of_passesOn rfl hpasses, Place.serves_of_passesOn rfl hpasses]
      exact ih hpattern
    · exact .inl (Place.serves_of_gives rfl hgives)
    · exact .inr (Place.serves_of_gives rfl hgives)

/-- An identifier that counts as a declaration is there for something, in an attribute apart. -/
theorem exists_serves (h : Placed tree) (hp : p ∈ Reference.identifiers tree)
    (hbinding : Reference.isBinding p = true) (hout : p.isInAttributes = false) :
    ∃ u, p.serves u = true := by
  have hof := Place.mem_preorder.1 (List.mem_of_mem_filter hp)
  rcases Reference.isBinding_cases hbinding with htype | ⟨a, ha, hcase⟩
  · have hpattern : p.node.isPattern = true := by simp [Node.isPattern, htype]
    rcases h.pattern_serves hof hpattern with hserves | hserves
    · exact ⟨_, hserves⟩
    · exact ⟨_, hserves⟩
  -- By what makes it count: a field, a list of parameters, an assignment or an import.
  rcases hcase with hfield | hparameter | ⟨hassignment, hleft⟩ | himport
  · rcases Node.gives_of_isDeclarationField hfield with
      ⟨htype, hleft⟩ | (hgives | hgives) | ⟨-, hgives | hgives | hgives⟩
    · have hpattern : a.node.isPattern = true := by simp [Node.isPattern, htype]
      have hpasses : a.node.passesOn p.node.field = true := by simp [Node.passesOn, htype, hleft]
      simp only [Place.serves_of_passesOn ha hpasses]
      rcases h.pattern_serves (Place.of_parent hof ha).1 hpattern with hserves | hserves
      · exact ⟨_, hserves⟩
      · exact ⟨_, hserves⟩
    all_goals exact ⟨_, Place.serves_of_gives ha hgives⟩
  · refine ⟨.binding, Place.serves_of_gives ha ?_⟩
    simp [Node.gives, Node.listsBindings, hparameter]
  · refine ⟨.write, Place.serves_of_gives ha ?_⟩
    simp [Node.gives, hassignment, hleft]
  · obtain ⟨a', ha', hplaced⟩ := h.imported p hp himport hout
    obtain rfl : a = a' := Option.some.inj (ha.symm.trans ha')
    rcases hplaced with hlists | ⟨hspecifier, hfield⟩
    · exact ⟨.binding, Place.serves_of_gives ha (by simp [Node.gives, hlists])⟩
    · rcases Node.gives_of_specifier hspecifier hfield with hgives | hgives
      · exact ⟨_, Place.serves_of_gives ha hgives⟩
      · exact ⟨_, Place.serves_of_gives ha hgives⟩

/-- Of the purposes one is that of an identifier that counts as a declaration. -/
theorem existsUnique_serves (h : Placed tree) (hp : p ∈ Reference.identifiers tree)
    (hbinding : Reference.isBinding p = true) (hout : p.isInAttributes = false) :
    ∃! u, p.serves u = true := by
  obtain ⟨u, hu⟩ := h.exists_serves hp hbinding hout
  exact ⟨u, hu, fun v hv => Place.serves_unique hv hu⟩

end Placed

end Deadwood
