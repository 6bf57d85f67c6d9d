import Deadwood.Proofs.Syntax.Layout
import Deadwood.Proofs.Text.Boundary
import Deadwood.Removal.Plan
import Mathlib.Tactic.MkIffOfInductiveProp

/-!
What a parser promises of the tree it gives to a source: how the ranges lie in the source, where
they fall between characters, and the shapes that the grammar leaves for a few kinds of nodes.
-/
namespace Deadwood

namespace Bytes

def isBlankInLine (b : UInt8) : Bool := isSpaceOrTab b || b == carriageReturn

def isBlank (b : UInt8) : Bool := isBlankInLine b || b == lineFeed

theorem isAscii_of_isBlank {b : UInt8} (h : isBlank b = true) : b.toNat < 0x80 := by
  simp only [isBlank, isBlankInLine, isSpaceOrTab, Bool.or_eq_true, beq_iff_eq] at h
  rcases h with ((rfl | rfl) | rfl) | rfl <;> decide

end Bytes

/-- Whether a place is one of a list of statements or class members: one of these, or a comment or
a semicolon between them. -/
def Place.isListed (p : Place) : Bool :=
  Plan.isStatementPlace p || p.parentType? = some "class_body"

/-- Ranges nest and follow one another within the source, and a node next to one of a list of
statements or class members does not meet it with a blank: apart from blanks, what touches the rest
of its line are other nodes. -/
@[mk_iff]
structure WellFormed (source : Bytes) (tree : Node) : Prop where
  isLaidOut : tree.isLaidOut = true
  stop_le : tree.stop ≤ source.length
  clearBefore : ∀ p ∈ Place.preorder tree, p.isListed = true → ∀ n ∈ tree.preorder,
    n.start < n.stop → n.stop ≤ p.node.start →
    (∀ b ∈ source.slice n.stop p.node.start, Bytes.isSpaceOrTab b = true) →
    ∀ b ∈ source.slice (n.stop - 1) n.stop, Bytes.isSpaceOrTab b = false
  clearAfter : ∀ p ∈ Place.preorder tree, p.isListed = true → ∀ n ∈ tree.preorder,
    n.start < n.stop → p.node.stop ≤ n.start →
    (∀ b ∈ source.slice p.node.stop n.start, Bytes.isBlankInLine b = true) →
    ∀ b ∈ source.slice n.start (n.start + 1), Bytes.isBlank b = false

/-- Nodes start and stop between characters. -/
def OnCharacters (source : Bytes) (tree : Node) : Prop :=
  ∀ n ∈ tree.preorder, Utf8.isBoundary source n.start = true ∧ Utf8.isBoundary source n.stop = true

/-- Shapes that the grammar promises. An empty node is a token without a name, if it is not the
whole tree; next to the declarators of a variable declaration there are only tokens; the import of
a namespace has one name. -/
@[mk_iff]
structure Grammatical (tree : Node) : Prop where
  solid : ∀ p ∈ Place.preorder tree, p.node.start = p.node.stop →
    p.node.isLeaf = true ∧ (p.node.isNamed = true → p.above = [])
  declared : ∀ n ∈ tree.preorder, n.kind = .variableDeclaration → ∀ c ∈ n.children,
    c.isLeaf = true ∨ (c.isNamed = true ∧ c.type = "variable_declarator")
  namespaced : ∀ n ∈ tree.preorder, n.type = "namespace_import" →
    (n.namedChildren.filter (·.type = "identifier")).length ≤ 1

set_option synthInstance.maxSize 400 in
/-- The bytes of a slice are looked at, not all bytes that there are. -/
instance (source : Bytes) (tree : Node) : Decidable (WellFormed source tree) :=
  haveI : ∀ (holds : UInt8 → Prop) [DecidablePred holds] (l : Bytes),
      Decidable (∀ b ∈ l, holds b) := fun holds _ l => List.decidableBAll holds l
  decidable_of_iff _ (wellFormed_iff source tree).symm

instance (source : Bytes) (tree : Node) : Decidable (OnCharacters source tree) :=
  inferInstanceAs (Decidable (∀ n ∈ tree.preorder, _ ∧ _))

instance (tree : Node) : Decidable (Grammatical tree) :=
  decidable_of_iff _ (grammatical_iff tree).symm

namespace Sample

/-- An import of which one name stays, and a function below its comment. -/
def source : Bytes :=
  Utf8.encode "import a, \x7b b \x7d from \"m\";\n// old\nfunction f() \x7b\x7d\n"

def node (type : String) (field : Option String) (start stop : Nat) (children : List Node) : Node :=
  .mk ⟨type, field, true, false, start, stop⟩ children

def token (type : String) (start stop : Nat) : Node :=
  .mk ⟨type, none, false, false, start, stop⟩ []

def importStatement : Node :=
  node "import_statement" none 0 25 [token "import" 0 6,
    node "import_clause" none 7 15 [node "identifier" none 7 8 [], token "," 8 9,
      node "named_imports" none 10 15 [token "\x7b" 10 11,
        node "import_specifier" none 12 13 [node "identifier" "name" 12 13 []],
        token "\x7d" 14 15]],
    token "from" 16 20,
    node "string" "source" 21 24 [token "\"" 21 22, node "string_fragment" none 22 23 [],
      token "\"" 23 24],
    token ";" 24 25]

def function : Node :=
  node "function_declaration" none 33 48 [token "function" 33 41, node "identifier" "name" 42 43 [],
    node "formal_parameters" "parameters" 43 45 [token "(" 43 44, token ")" 44 45],
    node "statement_block" "body" 46 48 [token "\x7b" 46 47, token "\x7d" 47 48]]

def tree : Node :=
  node "program" none 0 49 [importStatement, node "comment" none 26 32 [], function]

def targets : Targets := [("a", .importBinding), ("f", .function)]

def plan : Plan :=
  ⟨[⟨7, 15, Utf8.encode "\x7b b \x7d"⟩, ⟨26, 49, []⟩], 2, ["a", "f"]⟩

theorem ofTree_eq : Plan.ofTree targets source tree = .ok plan := by decide +kernel

/-- The tree of a text with nothing in it. -/
def bare : Node := node "program" none 0 0 []

theorem wellFormed : WellFormed source tree := by decide +kernel

theorem onCharacters : OnCharacters source tree := by decide +kernel

theorem grammatical : Grammatical tree := by decide +kernel

theorem wellFormed_bare (source : Bytes) : WellFormed source bare where
  isLaidOut := rfl
  stop_le := Nat.zero_le _
  clearBefore p hp hlisted := by
    obtain rfl : p = Place.root bare := List.mem_singleton.1 hp
    cases hlisted
  clearAfter p hp hlisted := by
    obtain rfl : p = Place.root bare := List.mem_singleton.1 hp
    cases hlisted

theorem onCharacters_bare (source : Bytes) : OnCharacters source bare := by
  intro n hn
  obtain rfl : n = bare := List.mem_singleton.1 hn
  exact ⟨Utf8.isBoundary_zero source, Utf8.isBoundary_zero source⟩

theorem grammatical_bare : Grammatical bare where
  solid := by decide
  declared := by decide
  namespaced := by decide

end Sample

variable {source : Bytes} {tree : Node} {p q : Place}

theorem Place.Of.mem_nodes (hp : Place.Of tree p) : p.node ∈ tree.preorder := by
  rw [← Place.preorder_nodes]
  exact List.mem_map_of_mem (Place.mem_preorder.2 hp)

theorem WellFormed.stop_le_length (h : WellFormed source tree) (hp : Place.Of tree p) :
    p.node.stop ≤ source.length := by
  have hroot := (hp.within .top h.isLaidOut List.nil_suffix).2
  exact hroot.trans h.stop_le

end Deadwood
