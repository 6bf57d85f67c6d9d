import Deadwood.Syntax.Place

/-!
References by name. An identifier declares a name where its place says so; everywhere else it
refers to that name. A usage records that a file refers to a known name at least once.
-/
namespace Deadwood

structure Usage where
  name : String
  file : String
  deriving DecidableEq, Repr

def Usage.le (u v : Usage) : Bool := ((compare u.name v.name).then (compare u.file v.file)).isLE

namespace Reference

/-- Parent types and fields whose child declares a name. -/
def declarationFields : List (String × String) := [
  ("function_declaration", "name"),
  ("generator_function_declaration", "name"),
  ("function_expression", "name"),
  ("function", "name"),
  ("generator_function", "name"),
  ("class_declaration", "name"),
  ("class", "name"),
  ("method_definition", "name"),
  ("variable_declarator", "name"),
  ("pair", "key"),
  ("pair_pattern", "key"),
  ("public_field_definition", "name"),
  ("field_definition", "property"),
  ("required_parameter", "pattern"),
  ("optional_parameter", "pattern"),
  ("arrow_function", "parameter"),
  ("assignment_pattern", "left"),
  ("catch_clause", "parameter"),
  ("labeled_statement", "label"),
  ("break_statement", "label"),
  ("continue_statement", "label")]

def isDeclarationField (parent : String) : Option String → Bool
  | some field => declarationFields.contains (parent, field)
  | none => false

def holdsBindings (parent : String) : Bool :=
  parent = "formal_parameters" || parent = "import_statement"

def closesScope (n : Node) : Bool :=
  n.type = "statement_block" || n.type = "program" || n.type = "class_body"

/-- An import statement stands above, with no block or class between. -/
def isInImport : List Node → Bool
  | [] => false
  | n :: rest => n.type = "import_statement" || (! closesScope n && isInImport rest)

def isBinding (p : Place) : Bool :=
  p.node.type = "shorthand_property_identifier_pattern" ||
    match p.parentType? with
    | none => false
    | some parent =>
      isDeclarationField parent p.node.field || holdsBindings parent ||
        (parent = "assignment_expression" && p.node.field = some "left") ||
        isInImport p.ancestors

def isIdentifier (n : Node) : Bool := n.kind = .identifier && n.isLeaf

def identifiers (tree : Node) : List Place := (Place.preorder tree).filter (isIdentifier ·.node)

/-- Names that a tree refers to, with repetition and in document order. -/
def names (source : Bytes) (tree : Node) : List String :=
  ((identifiers tree).filter (! isBinding ·)).map (·.node.text source)

def usages (known : List String) (source : Bytes) (file : String) (tree : Node) : List Usage :=
  ((names source tree).filter (known.contains ·)).eraseDups.map (⟨·, file⟩)

end Reference

end Deadwood
