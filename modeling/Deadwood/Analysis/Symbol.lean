import Deadwood.Syntax.Place

/-!
Symbols: the functions, function bindings, class methods and import bindings that a tree defines,
in document order. An import binding comes with the part that can be removed on its own.
-/
namespace Deadwood

inductive SymbolKind
  | function
  | arrowBinding
  | method
  | importBinding
  deriving DecidableEq, Repr

namespace SymbolKind

def name : SymbolKind → String
  | .function => "Function"
  | .arrowBinding => "ArrowBinding"
  | .method => "Method"
  | .importBinding => "ImportBinding"

def ofName? : String → Option SymbolKind
  | "Function" => some .function
  | "ArrowBinding" => some .arrowBinding
  | "Method" => some .method
  | "ImportBinding" => some .importBinding
  | _ => none

theorem ofName?_name (k : SymbolKind) : ofName? k.name = some k := by cases k <;> rfl

end SymbolKind

structure Symbol where
  name : String
  file : String
  line : Nat
  kind : SymbolKind
  deriving DecidableEq, Repr

/-- A text without its first and last character. -/
def unquoted (text : String) : String := String.ofList (text.toList.drop 1).dropLast

/-- The module named by a call of `require` whose first argument is a string. -/
def requireSource? (source : Bytes) (call : Node) : Option String := do
  guard (call.kind = .call)
  let callee ← call.child? "function"
  let arguments ← call.child? "arguments"
  guard (callee.text source = "require")
  let first ← arguments.namedChildren.head?
  guard (first.kind = .string)
  return unquoted (first.text source)

/-- A local name and the smallest part of its statement that can go with it. -/
structure Binding where
  name : Place
  part : Place

namespace Binding

def ofProperty? (property : Place) : Option Binding :=
  match property.node.type with
  | "shorthand_property_identifier_pattern" => some ⟨property, property⟩
  | "pair_pattern" => do
    let value ← property.child? "value"
    guard (value.node.type = "identifier")
    return ⟨value, property⟩
  | "object_assignment_pattern" => do
    let left ← property.child? "left"
    guard (left.node.type = "shorthand_property_identifier_pattern")
    return ⟨left, property⟩
  | _ => none

/-- Bindings of an object pattern. Nested patterns and rest elements have none. -/
def ofPattern (pattern : Place) : List Binding := pattern.namedChildren.filterMap ofProperty?

def ofSpecifier? (specifier : Place) : Option Binding := do
  guard (specifier.node.type = "import_specifier")
  let name ← (specifier.child? "alias").or (specifier.child? "name")
  return ⟨name, specifier⟩

def ofClausePart (part : Place) : List Binding :=
  match part.node.type with
  | "identifier" => [⟨part, part⟩]
  | "namespace_import" =>
    (part.namedChildren.filter (·.node.type = "identifier")).map fun name => ⟨name, part⟩
  | "named_imports" => part.namedChildren.filterMap ofSpecifier?
  | _ => []

def clause? (statement : Place) : Option Place :=
  statement.namedChildren.find? (·.node.type = "import_clause")

def ofImport (statement : Place) : List Binding :=
  match clause? statement with
  | none => []
  | some clause => clause.namedChildren.flatMap ofClausePart

end Binding

namespace Symbol

/-- Members of a class that are never called by name. -/
def isImplicit (method : String) : Bool := method = "constructor"

def isMemberName (n : Node) : Bool :=
  n.type = "property_identifier" || n.type = "private_property_identifier"

/-- The names of the symbols that a place introduces. -/
def definitions (source : Bytes) (p : Place) : List (Place × SymbolKind) :=
  match p.node.kind with
  | .functionDeclaration => ((p.child? "name").map (·, .function)).toList
  | .variableDeclarator =>
    match p.child? "name", p.node.child? "value" with
    | some name, some value =>
      if value.kind.isFunctionValue ∧ name.node.type = "identifier" then
        [(name, .arrowBinding)]
      else if (requireSource? source value).isNone then []
      else if name.node.type = "identifier" then [(name, .importBinding)]
      else if name.node.type = "object_pattern" then
        (Binding.ofPattern name).map fun b => (b.name, .importBinding)
      else []
    | _, _ => []
  | .method =>
    if p.parentType? = some "class_body" then
      match p.child? "name" with
      | some name =>
        if isMemberName name.node ∧ ! isImplicit (name.node.text source) then [(name, .method)]
        else []
      | none => []
    else []
  | .importStatement => (Binding.ofImport p).map fun b => (b.name, .importBinding)
  | _ => []

def definitionsOf (source : Bytes) (tree : Node) : List (Place × SymbolKind) :=
  (Place.preorder tree).flatMap (definitions source)

def ofDefinition (source : Bytes) (file : String) (d : Place × SymbolKind) : Symbol :=
  { name := d.1.node.text source, file, line := d.1.node.line source, kind := d.2 }

def extract (source : Bytes) (file : String) (tree : Node) : List Symbol :=
  (definitionsOf source tree).map (ofDefinition source file)

end Symbol

end Deadwood
