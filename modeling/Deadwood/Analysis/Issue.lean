import Deadwood.Analysis.Index

/-!
Issues: what an analysis finds wrong, each at a file and line and of one kind. They are ordered by
file, line, kind and name.
-/
namespace Deadwood

inductive IssueKind
  | unusedFunction
  | unusedImport
  | duplicateGroup
  | unreferencedHandler
  | deadCodePath
  | complexFunction
  deriving DecidableEq, Repr

namespace IssueKind

def all : List IssueKind :=
  [.unusedFunction, .unusedImport, .duplicateGroup, .unreferencedHandler, .deadCodePath,
    .complexFunction]

theorem mem_all (k : IssueKind) : k ∈ all := by cases k <;> decide

def name : IssueKind → String
  | .unusedFunction => "UnusedFunction"
  | .unusedImport => "UnusedImport"
  | .duplicateGroup => "DuplicateGroup"
  | .unreferencedHandler => "UnreferencedHandler"
  | .deadCodePath => "DeadCodePath"
  | .complexFunction => "ComplexFunction"

end IssueKind

inductive Issue
  | unusedFunction (symbol : Symbol)
  | unusedImport (symbol : Symbol)
  | duplicateGroup (group : DuplicateGroup)
  | unreferencedHandler (fact : ChannelFact)
  | deadCodePath (path : DeadCode)
  | complexFunction (function : ComplexFunction)
  deriving DecidableEq, Repr

namespace Issue

def kind : Issue → IssueKind
  | .unusedFunction _ => .unusedFunction
  | .unusedImport _ => .unusedImport
  | .duplicateGroup _ => .duplicateGroup
  | .unreferencedHandler _ => .unreferencedHandler
  | .deadCodePath _ => .deadCodePath
  | .complexFunction _ => .complexFunction

def file : Issue → String
  | .unusedFunction s | .unusedImport s => s.file
  | .duplicateGroup g => g.first.file
  | .unreferencedHandler f => f.file
  | .deadCodePath d => d.file
  | .complexFunction c => c.file

def line : Issue → Nat
  | .unusedFunction s | .unusedImport s => s.line
  | .duplicateGroup g => g.first.startLine
  | .unreferencedHandler f => f.line
  | .deadCodePath d => d.line
  | .complexFunction c => c.line

def name : Issue → String
  | .unusedFunction s | .unusedImport s => s.name
  | .duplicateGroup g => g.first.name
  | .unreferencedHandler f => f.channel
  | .deadCodePath d => d.reason.name
  | .complexFunction c => c.name

/-- The symbol that an issue says is unused. -/
def unusedSymbol? : Issue → Option Symbol
  | .unusedFunction s | .unusedImport s => some s
  | _ => none

def order (a b : Issue) : Ordering :=
  (((compare a.file b.file).then (compare a.line b.line)).then
    (compare a.kind.name b.kind.name)).then (compare a.name b.name)

def le (a b : Issue) : Bool := (order a b).isLE

def sort (issues : List Issue) : List Issue := issues.mergeSort le

def ofUnused (s : Symbol) : Issue :=
  if s.kind = .importBinding then .unusedImport s else .unusedFunction s

theorem unusedSymbol?_ofUnused (s : Symbol) : (ofUnused s).unusedSymbol? = some s := by
  unfold ofUnused; split <;> rfl

/-- The fields that an issue has beyond those all issues share. -/
def details : Issue → List (String × Json)
  | .unusedFunction s | .unusedImport s => [("symbolKind", .text s.kind.name)]
  | .duplicateGroup g =>
    [("hash", .text g.fingerprint.hash.toHex), ("block", .text g.fingerprint.excerpt),
      ("duplicateCount", .nat g.locations.length),
      ("locations", .list (g.locations.map locationJson))]
  | .unreferencedHandler f => [("channel", .text f.channel)]
  | .deadCodePath d => [("reason", .text d.reason.name), ("code", .text d.code)]
  | .complexFunction c => [("complexity", .nat c.complexity)]
where
  locationJson (l : Location) : Json :=
    .object [("file", .text l.file), ("startLine", .nat l.startLine), ("endLine", .nat l.endLine),
      ("name", .text l.name)]

def toJson (i : Issue) : Json :=
  .object <|
    [("file", .text i.file), ("location", .object [("line", .nat i.line)]), ("name", .text i.name),
      ("kind", .text i.kind.name)] ++ i.details

/-- Issues under the names of their kinds, every kind present. -/
def grouped (issues : List Issue) : Json :=
  .object <| IssueKind.all.map fun k =>
    (k.name, .list ((issues.filter (·.kind = k)).map toJson))

end Issue

end Deadwood
