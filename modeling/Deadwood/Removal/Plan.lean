import Deadwood.Analysis.Symbol
import Deadwood.Keyed
import Deadwood.Removal.Edit
import Deadwood.Removal.Range

/-!
Plans for removing targeted symbols from a tree. A declaration goes as a whole with its lines and
comments; an import clause, an object pattern or a list of declarators that keeps something is
rebuilt from the texts of what stays. The walk does not enter what an edit has replaced.
-/
namespace Deadwood

/-- The names to remove, each with the kind it must have. -/
abbrev Targets := Keyed String SymbolKind

namespace Targets

def contains (t : Targets) (name : String) (kind : SymbolKind) : Bool :=
  Keyed.get? t name == some kind

def holds (t : Targets) (source : Bytes) (kind : SymbolKind) (n : Node) : Bool :=
  t.contains (n.text source) kind

end Targets

structure Plan where
  edits : List Edit := []
  nodesRemoved : Nat := 0
  names : List String := []
  deriving DecidableEq, Repr

namespace Plan

/-- What a place contributes: edits, the names they remove and the places they replace. -/
structure Change where
  edits : List Edit := []
  names : List String := []
  replaced : List Place := []

/-- Parents under which a statement can be dropped. -/
def holdsStatements (type : String) : Bool :=
  type = "program" || type = "statement_block" || type = "switch_case" ||
    type = "switch_default" || type = "class_static_block"

def isStatementPlace (p : Place) : Bool := (p.parentType?.map holdsStatements).getD false

def isDefaultExport (n : Node) : Bool := n.children.any (·.type = "default")

/-- What to delete for a declaration, itself or its export; a default export or a declaration in
the head of a loop has nothing. -/
def statementTarget? (p : Place) : Option Place :=
  match p.parent? with
  | none => none
  | some parent =>
    if parent.node.type = "export_statement" then
      if isDefaultExport parent.node then none
      else if isStatementPlace parent then some parent else none
    else if holdsStatements parent.node.type then some p else none

def deletion (source : Bytes) (p : Place) (withSemicolon : Bool) : Edit :=
  let r := Range.ofRemoval source p withSemicolon
  ⟨r.start, r.stop, []⟩

def commaSeparated (texts : List String) : String := ", ".intercalate texts

def braced (texts : List String) : String := "\x7b " ++ commaSeparated texts ++ " \x7d"

def replacementOf (n : Node) (text : String) : Edit := ⟨n.start, n.stop, Utf8.encode text⟩

/-- Drops the declaration at `p` under the names it defines. -/
def dropStatement (source : Bytes) (p : Place) (names : List String) : Change :=
  match statementTarget? p with
  | none => {}
  | some target => ⟨[deletion source target false], names, [p]⟩

def changeFunction (t : Targets) (source : Bytes) (p : Place) : Change :=
  match p.node.child? "name" with
  | none => {}
  | some name =>
    if t.holds source .function name then dropStatement source p [name.text source] else {}

def changeMethod (t : Targets) (source : Bytes) (p : Place) : Change :=
  if p.parentType? = some "class_body" then
    match p.node.child? "name" with
    | none => {}
    | some name =>
      if t.holds source .method name then
        ⟨[deletion source p true], [name.text source], [p]⟩
      else {}
  else {}

def removedBindings (t : Targets) (source : Bytes) (bindings : List Binding) : List Binding :=
  bindings.filter (t.holds source .importBinding ·.name.node)

def bindingNames (source : Bytes) (bindings : List Binding) : List String :=
  bindings.map (·.name.node.text source)

def isPartOf (bindings : List Binding) (p : Place) : Bool :=
  bindings.any (·.part.address = p.address)

/-- The text that is left of one part of an import clause. -/
def clausePart? (source : Bytes) (removed : List Binding) (part : Place) : Option String :=
  if part.node.type = "named_imports" then
    let kept := part.namedChildren.filter fun s =>
      s.node.type = "import_specifier" && ! isPartOf removed s
    if kept.isEmpty then none else some (braced (kept.map (·.node.text source)))
  else if isPartOf removed part then none
  else some (part.node.text source)

def clauseText (source : Bytes) (removed : List Binding) (clause : Place) : String :=
  commaSeparated (clause.namedChildren.filterMap (clausePart? source removed))

def changeImport (t : Targets) (source : Bytes) (p : Place) : Change :=
  let bindings := Binding.ofImport p
  let removed := removedBindings t source bindings
  if removed.isEmpty then {}
  else if removed.length = bindings.length then
    dropStatement source p (bindingNames source removed)
  else
    match Binding.clause? p with
    | none => {}
    | some clause =>
      ⟨[replacementOf clause.node (clauseText source removed clause)],
        bindingNames source removed, [clause]⟩

/-- What becomes of one declarator. -/
inductive Fate
  | keep
  | drop (names : List String)
  | rebuild (names : List String) (pattern : Edit)

namespace Fate

def names : Fate → List String
  | .keep => []
  | .drop names => names
  | .rebuild names _ => names

def isDrop : Fate → Bool
  | .drop _ => true
  | _ => false

def pattern? : Fate → Option Edit
  | .rebuild _ e => some e
  | _ => none

end Fate

/-- Properties that stay in an object pattern, comments apart. -/
def keptProperties (removed : List Binding) (pattern : Place) : List Place :=
  pattern.namedChildren.filter fun p => ! isPartOf removed p && p.node.type != "comment"

def patternFate (t : Targets) (source : Bytes) (pattern : Place) : Fate :=
  let removed := removedBindings t source (Binding.ofPattern pattern)
  let names := bindingNames source removed
  if removed.isEmpty then .keep
  else
    let kept := keptProperties removed pattern
    if kept.isEmpty then .drop names
    else .rebuild names (replacementOf pattern.node (braced (kept.map (·.node.text source))))

def nameFate (t : Targets) (source : Bytes) (kind : SymbolKind) (name : Node) : Fate :=
  if t.holds source kind name then .drop [name.text source] else .keep

def fate (t : Targets) (source : Bytes) (declarator : Place) : Fate :=
  match declarator.child? "name", declarator.node.child? "value" with
  | some name, some value =>
    let required := (requireSource? source value).isSome
    if name.node.type = "identifier" then
      if value.kind.isFunctionValue then nameFate t source .arrowBinding name.node
      else if required then nameFate t source .importBinding name.node
      else .keep
    else if name.node.type = "object_pattern" ∧ required then patternFate t source name
    else .keep
  | _, _ => .keep

/-- A declarator's bytes with its pattern replaced. -/
def rebuilt (source : Bytes) (n : Node) (pattern : Edit) : Bytes :=
  let raw := n.bytes source
  raw.take (pattern.start - n.start) ++ pattern.replacement ++ raw.drop (pattern.stop - n.start)

/-- The text that is left of a declarator, if any is. -/
def keptText? (source : Bytes) (n : Node) : Fate → Except Utf8.Fault (Option String)
  | .keep => .ok (some (n.text source))
  | .drop _ => .ok none
  | .rebuild _ pattern => (Utf8.decode (rebuilt source n pattern)).map some

def keptTexts (source : Bytes) : List (Place × Fate) → Except Utf8.Fault (List String)
  | [] => .ok []
  | (p, f) :: rest =>
    match keptText? source p.node f, keptTexts source rest with
    | .error e, _ => .error e
    | _, .error e => .error e
    | .ok text, .ok texts => .ok (text.toList ++ texts)

def declarators (p : Place) : List Place :=
  p.namedChildren.filter (·.node.type = "variable_declarator")

def fates (t : Targets) (source : Bytes) (p : Place) : List (Place × Fate) :=
  (declarators p).map fun d => (d, fate t source d)

/-- From the first declarator to the last. -/
def declaratorSpan (fates : List (Place × Fate)) : Range :=
  ⟨(fates.head?.map (·.1.node.start)).getD 0, (fates.getLast?.map (·.1.node.stop)).getD 0⟩

def changeVariables (t : Targets) (source : Bytes) (p : Place) : Except Utf8.Fault Change := do
  let fates := fates t source p
  let kept ← keptTexts source fates
  let names := fates.flatMap (·.2.names)
  if names.isEmpty then return {}
  else if kept.isEmpty then return dropStatement source p names
  else if fates.any (·.2.isDrop) then
    let r := declaratorSpan fates
    return ⟨[⟨r.start, r.stop, Utf8.encode (commaSeparated kept)⟩], names, fates.map (·.1)⟩
  else
    return ⟨fates.filterMap (·.2.pattern?), names,
      (fates.filter (·.2.pattern?.isSome)).map (·.1)⟩

def change (t : Targets) (source : Bytes) (p : Place) : Except Utf8.Fault Change :=
  match p.node.kind with
  | .functionDeclaration => .ok (changeFunction t source p)
  | .variableDeclaration => changeVariables t source p
  | .method => .ok (changeMethod t source p)
  | .importStatement => .ok (changeImport t source p)
  | _ => .ok {}

/-- Records edits and the names they remove. -/
def record (plan : Plan) (edits : List Edit) (names : List String) : Plan :=
  { edits := plan.edits ++ edits
    nodesRemoved := plan.nodesRemoved + names.length
    names := plan.names ++ names }

structure Progress where
  plan : Plan := {}
  replaced : List Address := []

def Progress.add (s : Progress) (c : Change) : Progress :=
  { plan := s.plan.record c.edits c.names
    replaced := s.replaced ++ c.replaced.map (·.address) }

def visit (t : Targets) (source : Bytes) (s : Except Utf8.Fault Progress) (p : Place) :
    Except Utf8.Fault Progress := do
  let s ← s
  return s.add (← change t source p)

def enters : Except Utf8.Fault Progress → Place → Bool
  | .ok s, p => ! s.replaced.contains p.address
  | .error _, _ => false

/-- The plan for a tree, unless a rebuilt declarator is no text. -/
def ofTree (t : Targets) (source : Bytes) (tree : Node) : Except Utf8.Fault Plan :=
  (Place.walk (visit t source) enters (.ok {}) tree).map (·.plan)

end Plan

end Deadwood
