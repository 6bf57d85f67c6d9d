import Deadwood.Proofs.Analysis.Symbol
import Deadwood.Proofs.Analysis.Unused
import Mathlib.Data.Option.Basic

/-!
Definitions as declarations. A name that a tree defines stands in a place that declares it, with one
exception: the new name that an object pattern gives to a property counts as a reference. So of the
names that occur in definitions alone, those without such a renaming are reported as unused
(`definitions_declare`).
-/
namespace Deadwood

namespace Place

variable {p c : Place}

theorem parentType?_of_mem_children (h : c ∈ p.children) : c.parentType? = some p.node.type := by
  obtain ⟨i, n, -, rfl⟩ := mem_children.1 h
  rfl

theorem ancestors_of_mem_children (h : c ∈ p.children) : c.ancestors = p.node :: p.ancestors := by
  obtain ⟨i, n, -, rfl⟩ := mem_children.1 h
  rfl

theorem field_of_child? {field : String} (h : p.child? field = some c) :
    c.node.field = some field := by
  simpa using List.find?_some h

end Place

namespace Reference

variable {p c : Place}

/-- Declarations of functions, declarators and methods declare what they name. -/
theorem isDeclarationField_name {type : String}
    (h : NodeKind.ofType type = .functionDeclaration ∨ NodeKind.ofType type = .variableDeclarator ∨
      NodeKind.ofType type = .method) : isDeclarationField type (some "name") = true := by
  unfold NodeKind.ofType at h
  split at h
  case h_1 | h_2 | h_7 | h_10 => decide
  all_goals simp at h

theorem type_of_importStatement {type : String} (h : NodeKind.ofType type = .importStatement) :
    type = "import_statement" := by
  unfold NodeKind.ofType at h
  split at h
  case h_11 => rfl
  all_goals simp at h

theorem type_of_declarator {type : String} (h : NodeKind.ofType type = .variableDeclarator) :
    type = "variable_declarator" := by
  unfold NodeKind.ofType at h
  split at h
  case h_10 => rfl
  all_goals simp at h

theorem isBinding_of_field {field : String} (hc : p.child? field = some c)
    (h : isDeclarationField p.node.type (some field) = true) : isBinding c = true := by
  simp [isBinding, Place.parentType?_of_mem_children (Place.mem_children_of_child? hc),
    Place.field_of_child? hc, h]

theorem isBinding_of_shorthand (h : p.node.type = "shorthand_property_identifier_pattern") :
    isBinding p = true := by
  simp [isBinding, h]

/-- Below a node in an import, the statement itself included, all is in that import. -/
theorem isInImport_of_mem_children (hc : c ∈ p.children)
    (h : p.node.type = "import_statement" ∨ closesScope p.node = false ∧
      isInImport p.ancestors = true) : isInImport c.ancestors = true := by
  rw [Place.ancestors_of_mem_children hc, isInImport]
  rcases h with h | ⟨hopen, hin⟩
  · simp [h]
  · simp [hopen, hin]

theorem isBinding_of_isInImport (h : isInImport p.ancestors = true) : isBinding p = true := by
  obtain ⟨n, above⟩ := p
  cases above with
  | nil => cases h
  | cons a rest => simp [isBinding, Place.parentType?, Place.parent?, h]

/-- The new name that an object pattern gives to a property. -/
def isRenaming (p : Place) : Bool := p.parentType? = some "pair_pattern"

theorem isRenaming_of_mem_children (h : c ∈ p.children) :
    isRenaming c = decide (p.node.type = "pair_pattern") := by
  simp [isRenaming, Place.parentType?_of_mem_children h]

/-- The table of declarations has the keys of such patterns and not their values. -/
theorem isBinding_of_value (hc : p.child? "value" = some c) (hp : p.node.type = "pair_pattern")
    (htype : c.node.type = "identifier") : isBinding c = isInImport c.ancestors := by
  have hparent := Place.parentType?_of_mem_children (Place.mem_children_of_child? hc)
  have hvalue : isDeclarationField "pair_pattern" (some "value") = false := by decide
  simp [isBinding, hparent, Place.field_of_child? hc, hp, htype, hvalue, holdsBindings]

end Reference

namespace Binding

variable {p statement : Place} {b : Binding}

open Reference

/-- The three kinds of property that bind a name. -/
theorem ofProperty?_cases (h : ofProperty? p = some b) :
    p.node.type = "shorthand_property_identifier_pattern" ∧ b.name = p ∨
    p.node.type = "pair_pattern" ∧ p.child? "value" = some b.name ∧
      b.name.node.type = "identifier" ∨
    p.node.type = "object_assignment_pattern" ∧ p.child? "left" = some b.name ∧
      b.name.node.type = "shorthand_property_identifier_pattern" := by
  unfold ofProperty? at h
  split at h
  · next htype =>
    obtain rfl := Option.some.inj h
    exact .inl ⟨htype, rfl⟩
  · next htype =>
    obtain ⟨value, hvalue, h⟩ := Option.bind_eq_some_iff.1 h
    obtain ⟨_, hguard, h⟩ := Option.bind_eq_some_iff.1 h
    obtain rfl := Option.some.inj h
    exact .inr (.inl ⟨htype, hvalue, (Option.guard_eq_some' _).1 hguard⟩)
  · next htype =>
    obtain ⟨left, hleft, h⟩ := Option.bind_eq_some_iff.1 h
    obtain ⟨_, hguard, h⟩ := Option.bind_eq_some_iff.1 h
    obtain rfl := Option.some.inj h
    exact .inr (.inr ⟨htype, hleft, (Option.guard_eq_some' _).1 hguard⟩)
  · cases h

/-- A name in an object pattern is declared unless it renames its property. -/
theorem isBinding_ofPattern (hp : p.node.type = "object_pattern") (h : b ∈ ofPattern p) :
    isBinding b.name = (! isRenaming b.name || isInImport b.name.ancestors) := by
  obtain ⟨property, hproperty, hb⟩ := List.mem_filterMap.1 h
  have hchild := Place.mem_children_of_mem_namedChildren hproperty
  rcases ofProperty?_cases hb with ⟨htype, hname⟩ | ⟨htype, hvalue, hname⟩ | ⟨htype, hleft, hname⟩
  · rw [hname, isBinding_of_shorthand htype, isRenaming_of_mem_children hchild, hp]
    simp
  · rw [isBinding_of_value hvalue htype hname,
      isRenaming_of_mem_children (Place.mem_children_of_child? hvalue), htype]
    simp
  · rw [isBinding_of_shorthand hname,
      isRenaming_of_mem_children (Place.mem_children_of_child? hleft), htype]
    simp

theorem isInImport_of_clausePart (hp : isInImport p.ancestors = true) (h : b ∈ ofClausePart p) :
    isInImport b.name.ancestors = true := by
  rcases mem_ofClausePart.1 h with ⟨-, rfl⟩ | ⟨htype, -, hname, -⟩ | ⟨htype, hpart, hb⟩
  · exact hp
  · exact isInImport_of_mem_children (Place.mem_children_of_mem_namedChildren hname)
      (.inr ⟨by simp [closesScope, htype], hp⟩)
  · obtain ⟨-, hspecifier, hname⟩ := ofSpecifier?_eq_some hb
    have hpart' := isInImport_of_mem_children (Place.mem_children_of_mem_namedChildren hpart)
      (.inr ⟨by simp [closesScope, htype], hp⟩)
    exact isInImport_of_mem_children hname (.inr ⟨by simp [closesScope, hspecifier], hpart'⟩)

/-- The names of an import stand in it, with no scope between. -/
theorem isInImport_ofImport (hs : statement.node.type = "import_statement")
    (h : b ∈ ofImport statement) : isInImport b.name.ancestors = true := by
  obtain ⟨clause, part, hclause, hpart, hb⟩ := mem_ofImport.1 h
  have htype : clause.node.type = "import_clause" := by simpa using List.find?_some hclause
  have hin := isInImport_of_mem_children (mem_children_of_clause? hclause) (.inl hs)
  refine isInImport_of_clausePart ?_ hb
  exact isInImport_of_mem_children (Place.mem_children_of_mem_namedChildren hpart)
    (.inr ⟨by simp [closesScope, htype], hin⟩)

end Binding

namespace Symbol

open Reference

variable {source : Bytes} {p : Place} {b : Place × SymbolKind}

/-- A symbol is named by a field that declares, in an object pattern or in an import. -/
theorem definitions_shapes (h : b ∈ definitions source p) :
    p.child? "name" = some b.1 ∧ isDeclarationField p.node.type (some "name") = true ∨
    (∃ pattern c, p.node.type = "variable_declarator" ∧ p.child? "name" = some pattern ∧
      pattern.node.type = "object_pattern" ∧ c ∈ Binding.ofPattern pattern ∧ b.1 = c.name) ∨
    ∃ c ∈ Binding.ofImport p, p.node.type = "import_statement" ∧ b.1 = c.name := by
  cases hk : p.node.kind with
  | functionDeclaration =>
    unfold definitions at h
    rw [hk] at h
    simp only [Option.mem_toList, Option.map_eq_some_iff] at h
    obtain ⟨name, hname, rfl⟩ := h
    exact .inl ⟨hname, isDeclarationField_name (.inl hk)⟩
  | variableDeclarator =>
    have hfield := isDeclarationField_name (.inr (.inl hk))
    rw [definitions_of_declarator hk] at h
    split at h
    · next name value hname hvalue =>
      split at h
      · rw [List.mem_singleton.1 h]
        exact .inl ⟨hname, hfield⟩
      · split at h
        · cases h
        · split at h
          · rw [List.mem_singleton.1 h]
            exact .inl ⟨hname, hfield⟩
          · split at h
            · next htype =>
              obtain ⟨c, hc, rfl⟩ := mem_importSymbols.1 h
              exact .inr (.inl ⟨name, c, type_of_declarator hk, hname, htype, hc, rfl⟩)
            · cases h
    · cases h
  | method =>
    unfold definitions at h
    rw [hk] at h
    dsimp only at h
    split at h
    · split at h
      · next name hname =>
        split at h
        · rw [List.mem_singleton.1 h]
          exact .inl ⟨hname, isDeclarationField_name (.inr (.inr hk))⟩
        · cases h
      · cases h
    · cases h
  | importStatement =>
    unfold definitions at h
    rw [hk] at h
    obtain ⟨c, hc, rfl⟩ := mem_importSymbols.1 h
    exact .inr (.inr ⟨c, hc, type_of_importStatement hk, rfl⟩)
  | _ =>
    unfold definitions at h
    rw [hk] at h
    cases h

/-- A defined name is declared where it stands unless it renames a property. -/
theorem isBinding_of_definition (h : b ∈ definitions source p) :
    isBinding b.1 = (! isRenaming b.1 || isInImport b.1.ancestors) := by
  rcases definitions_shapes h with
    ⟨hname, hfield⟩ | ⟨pattern, c, -, -, htype, hc, hb⟩ | ⟨c, hc, htype, hb⟩
  · have hne : p.node.type ≠ "pair_pattern" := by
      intro htype
      rw [htype] at hfield
      exact absurd hfield (by decide)
    rw [isBinding_of_field hname hfield,
      isRenaming_of_mem_children (Place.mem_children_of_child? hname)]
    simp [hne]
  · rw [hb]
    exact Binding.isBinding_ofPattern htype hc
  · have hin := Binding.isInImport_ofImport htype hc
    rw [hb, isBinding_of_isInImport hin, hin, Bool.or_true]

end Symbol

namespace Index

open Reference

variable {files : List SourceFile} {name : String}

/-- Every identifier of that name is one that a definition names. -/
def OnlyDefined (files : List SourceFile) (name : String) : Prop :=
  ∀ f ∈ files, ∀ p ∈ identifiers f.tree, p.node.text f.source = name →
    ∃ b ∈ Symbol.definitionsOf f.source f.tree, b.1.address = p.address

theorem OnlyDefined.mem_definitionsOf (h : OnlyDefined files name) {f : SourceFile} (hf : f ∈ files)
    {p : Place} (hp : p ∈ identifiers f.tree) (htext : p.node.text f.source = name) :
    ∃ kind, (p, kind) ∈ Symbol.definitionsOf f.source f.tree := by
  obtain ⟨⟨q, kind⟩, hb, haddress⟩ := h f hf p hp htext
  obtain ⟨r, hr, hdef⟩ := Symbol.mem_definitionsOf.1 hb
  have hq := (Symbol.definitions_of_tree hr hdef).1
  obtain rfl := hq.eq_of_address (Place.mem_preorder.1 (List.mem_of_mem_filter hp)) haddress
  exact ⟨kind, hb⟩

theorem mem_identifiers {tree : Node} {p : Place} : p ∈ identifiers tree ↔
    p ∈ Place.preorder tree ∧ p.node.kind = .identifier ∧ p.node.isLeaf = true := by
  simp [identifiers, isIdentifier]

theorem refers_iff : Refers files name ↔ ∃ f ∈ files, ∃ p ∈ identifiers f.tree,
    p.node.text f.source = name ∧ isBinding p = false := by
  simp only [Refers, mem_identifiers, and_assoc]

/-- A defined name is declared where it stands, unless it is the new name of a property. A name that
occurs in definitions alone is reported as unused exactly if none of them is such a renaming. -/
theorem definitions_declare (options : AnalysisOptions) (failures : List ParseFailure)
    (files : List SourceFile) (name : String) :
    (∀ f ∈ files, ∀ b ∈ Symbol.definitionsOf f.source f.tree,
      isBinding b.1 = (! isRenaming b.1 || isInImport b.1.ancestors)) ∧
    (Defines files name → OnlyDefined files name →
      (Issue.unusedNamed name (build options files failures).issues ≠ [] ↔
        ∀ f ∈ files, ∀ p ∈ identifiers f.tree, p.node.text f.source = name →
          isRenaming p = false ∨ isInImport p.ancestors = true)) := by
  have hdeclared : ∀ f ∈ files, ∀ b ∈ Symbol.definitionsOf f.source f.tree,
      isBinding b.1 = (! isRenaming b.1 || isInImport b.1.ancestors) := by
    intro f _ b hb
    obtain ⟨p, -, hb⟩ := Symbol.mem_definitionsOf.1 hb
    exact Symbol.isBinding_of_definition hb
  refine ⟨hdeclared, fun hdefines honly => ?_⟩
  rw [unusedNamed_ne_nil_iff, and_iff_right hdefines, refers_iff]
  push Not
  refine forall₅_congr fun f hf p hp htext => ?_
  obtain ⟨kind, hb⟩ := honly.mem_definitionsOf hf hp htext
  rw [hdeclared f hf _ hb]
  cases isRenaming p with
  | false => simp
  | true => simp

/-- The one definition of the name stands in a declaration, and the name is reported. -/
theorem definitions_declare_sample :
    Defines [Sample.defining] "f" ∧ OnlyDefined [Sample.defining] "f" ∧
      Issue.unusedNamed "f" (build {} [Sample.defining] []).issues ≠ [] := by
  have hdefines : Defines [Sample.defining] "f" := by
    unfold Defines
    decide +kernel
  have honly : OnlyDefined [Sample.defining] "f" := by
    unfold OnlyDefined
    decide +kernel
  refine ⟨hdefines, honly, ((definitions_declare {} [] _ _).2 hdefines honly).2 ?_⟩
  decide +kernel

namespace Sample

open Deadwood.Sample (node token)

/-- A property that is required under a new name. -/
def aliasing : SourceFile :=
  ⟨⟨0, ["a.js"]⟩, Utf8.encode "const \x7b a: b \x7d = require(\"m\");\n",
    node "program" none 0 31 [node "lexical_declaration" none 0 30 [token "const" 0 5,
      node "variable_declarator" none 6 29 [
        node "object_pattern" (some "name") 6 14 [token "\x7b" 6 7,
          node "pair_pattern" none 8 12 [node "property_identifier" (some "key") 8 9 [],
            token ":" 9 10, node "identifier" (some "value") 11 12 []], token "\x7d" 13 14],
        token "=" 15 16,
        node "call_expression" (some "value") 17 29 [node "identifier" (some "function") 17 24 [],
          node "arguments" (some "arguments") 24 29 [token "(" 24 25,
            node "string" none 25 28 [token "\"" 25 26, node "string_fragment" none 26 27 [],
              token "\"" 27 28], token ")" 28 29]]], token ";" 29 30]]⟩

end Sample

/-- The new name is defined and occurs nowhere else, but its one occurrence counts as a reference, so
it is not reported. -/
theorem renaming_is_not_declared :
    (∃ b ∈ Symbol.definitionsOf Sample.aliasing.source Sample.aliasing.tree,
      b.1.node.text Sample.aliasing.source = "b" ∧ isBinding b.1 = false) ∧
    Defines [Sample.aliasing] "b" ∧ OnlyDefined [Sample.aliasing] "b" ∧
    Issue.unusedNamed "b" (build {} [Sample.aliasing] []).issues = [] := by
  have hdefines : Defines [Sample.aliasing] "b" := by
    unfold Defines
    decide +kernel
  have honly : OnlyDefined [Sample.aliasing] "b" := by
    unfold OnlyDefined
    decide +kernel
  have hrefers : Refers [Sample.aliasing] "b" := by
    unfold Refers
    decide +kernel
  refine ⟨by decide +kernel, hdefines, honly, ?_⟩
  by_contra hreported
  exact ((unusedNamed_ne_nil_iff {} [] "b").1 hreported).2 hrefers

end Index

end Deadwood
