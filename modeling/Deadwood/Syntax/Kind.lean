/-!
The kinds of syntax nodes that the analyses and the removal planner tell apart. Many node types
share a kind; every type not listed is of the kind `other`.
-/
namespace Deadwood

inductive NodeKind
  | functionDeclaration
  | functionExpression
  | arrowFunction
  | method
  | variableDeclaration
  | variableDeclarator
  | importStatement
  | exportStatement
  | call
  | statementBlock
  | returnStatement
  | throwStatement
  | branch
  | binary
  | identifier
  | string
  | comment
  | other
  deriving DecidableEq, Repr

namespace NodeKind

def name : NodeKind → String
  | .functionDeclaration => "function_declaration"
  | .functionExpression => "function_expression"
  | .arrowFunction => "arrow_function"
  | .method => "method"
  | .variableDeclaration => "variable_declaration"
  | .variableDeclarator => "variable_declarator"
  | .importStatement => "import_statement"
  | .exportStatement => "export_statement"
  | .call => "call"
  | .statementBlock => "statement_block"
  | .returnStatement => "return"
  | .throwStatement => "throw"
  | .branch => "branch"
  | .binary => "binary"
  | .identifier => "identifier"
  | .string => "string"
  | .comment => "comment"
  | .other => "other"

def ofType : String → NodeKind
  | "function_declaration" | "generator_function_declaration" => .functionDeclaration
  | "function_expression" | "function" | "generator_function" => .functionExpression
  | "arrow_function" => .arrowFunction
  | "method_definition" => .method
  | "lexical_declaration" | "variable_declaration" => .variableDeclaration
  | "variable_declarator" => .variableDeclarator
  | "import_statement" => .importStatement
  | "export_statement" => .exportStatement
  | "call_expression" => .call
  | "statement_block" => .statementBlock
  | "return_statement" => .returnStatement
  | "throw_statement" => .throwStatement
  | "if_statement" | "for_statement" | "for_in_statement" | "while_statement" | "do_statement"
  | "switch_case" | "catch_clause" | "ternary_expression" => .branch
  | "binary_expression" => .binary
  | "identifier" | "property_identifier" | "shorthand_property_identifier"
  | "shorthand_property_identifier_pattern" | "private_property_identifier" | "type_identifier"
  | "statement_identifier" => .identifier
  | "string" => .string
  | "comment" => .comment
  | _ => .other

/-- Kinds whose nodes are functions in their own right. -/
def isFunctionLike : NodeKind → Bool
  | .functionDeclaration | .functionExpression | .arrowFunction | .method => true
  | _ => false

/-- Kinds of value that make a variable a function binding. -/
def isFunctionValue : NodeKind → Bool
  | .functionExpression | .arrowFunction => true
  | _ => false

theorem isFunctionLike_of_isFunctionValue {k : NodeKind} (h : k.isFunctionValue) :
    k.isFunctionLike := by
  cases k <;> simp_all [isFunctionValue, isFunctionLike]

end NodeKind

end Deadwood
