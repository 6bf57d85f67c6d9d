import Deadwood.Analysis.Issue

/-!
From the index to the report. Symbols and files form a graph whose edges are the usages; a symbol
that no edge reaches is unused. The report counts the issues and recommends what to do about them.
-/
namespace Deadwood

structure ReferenceGraph where
  symbols : Keyed String Symbol
  edges : List Usage
  deriving Repr

namespace ReferenceGraph

def ofIndex (i : Index) : ReferenceGraph :=
  let symbols := i.symbols.foldl (fun l s => Keyed.set l s.name s) []
  { symbols, edges := (i.usages.filter (symbols.keys.contains ·.name)).eraseDups }

inductive GraphNode
  | file (name : String)
  | symbol (name : String)
  deriving DecidableEq, Repr

def nodes (g : ReferenceGraph) : List GraphNode :=
  ((g.edges.map (·.file)).eraseDups.mergeSort fun a b => (compare a b).isLE).map .file ++
    (g.symbols.keys.mergeSort fun a b => (compare a b).isLE).map .symbol

def sortedEdges (g : ReferenceGraph) : List (String × String) :=
  (g.edges.map fun u => (u.file, u.name)).mergeSort fun a b =>
    ((compare a.1 b.1).then (compare a.2 b.2)).isLE

def isUsed (g : ReferenceGraph) (name : String) : Bool := g.edges.any (·.name = name)

def unused (g : ReferenceGraph) : List Symbol :=
  (g.symbols.filter fun (name, _) => ! g.isUsed name).map (·.2)

end ReferenceGraph

namespace Index

def invokedChannels (i : Index) : List String :=
  (i.facts.filter (·.role = .invoked)).map (·.channel)

def unreferencedHandlers (i : Index) : List ChannelFact :=
  i.facts.filter fun f => f.role = .defined && ! i.invokedChannels.contains f.channel

def issues (i : Index) : List Issue :=
  Issue.sort <|
    (ReferenceGraph.ofIndex i).unused.map Issue.ofUnused ++
      i.unreferencedHandlers.map .unreferencedHandler ++
      i.duplicates.map .duplicateGroup ++
      i.deadCode.map .deadCodePath ++
      i.complexFunctions.map .complexFunction

end Index

structure Recommendation where
  type : String
  priority : String
  message : String
  autoFixable : Bool
  deriving DecidableEq, Repr

def Recommendation.toJson (r : Recommendation) : Json :=
  .object [("type", .text r.type), ("priority", .text r.priority), ("message", .text r.message),
    ("autoFixable", .bool r.autoFixable)]

structure AnalysisReport where
  issues : List Issue := []
  failures : List ParseFailure := []
  fileCount : Nat := 0
  deriving Repr

namespace AnalysisReport

def ofIndex (i : Index) : AnalysisReport := ⟨i.issues, i.failures, i.fileCount⟩

def ofKind (r : AnalysisReport) (k : IssueKind) : List Issue := r.issues.filter (·.kind = k)

def count (r : AnalysisReport) (k : IssueKind) : Nat := (r.ofKind k).length

/-- The name of an issue kind's count in the summary. -/
def countName : IssueKind → String
  | .unusedFunction => "unusedFunctions"
  | .unusedImport => "unusedImports"
  | .duplicateGroup => "duplicateCode"
  | .unreferencedHandler => "unusedIpcHandlers"
  | .deadCodePath => "deadCodePaths"
  | .complexFunction => "complexityIssues"

def summary (r : AnalysisReport) : Json :=
  .object <|
    [("totalIssues", .nat r.issues.length), ("filesAnalyzed", .nat r.fileCount),
      ("parseErrors", .nat r.failures.length)] ++
    IssueKind.all.map fun k => (countName k, .nat (r.count k))

def advice (n : Nat) : IssueKind → Recommendation
  | .unusedFunction =>
    ⟨"cleanup", "high", s!"Remove {n} unused functions to reduce bundle size", true⟩
  | .unusedImport =>
    ⟨"cleanup", "medium", s!"Remove {n} unused imports to improve build performance", true⟩
  | .duplicateGroup =>
    ⟨"refactor", "medium", s!"Refactor {n} duplicate code blocks into reusable functions", false⟩
  | .deadCodePath =>
    ⟨"cleanup", "medium", s!"Remove {n} unreachable statements after return or throw", false⟩
  | .complexFunction =>
    ⟨"refactor", "low", s!"Break down {n} overly complex functions", false⟩
  | .unreferencedHandler =>
    ⟨"cleanup", "high", s!"Remove {n} unused IPC handlers to reduce backend surface area", false⟩

/-- Kinds in the order in which they are advised upon. -/
def advisedKinds : List IssueKind :=
  [.unusedFunction, .unusedImport, .duplicateGroup, .deadCodePath, .complexFunction,
    .unreferencedHandler]

def recommendations (r : AnalysisReport) : List Recommendation :=
  (advisedKinds.filter (r.count · ≠ 0)).map fun k => advice (r.count k) k

def failureJson (f : ParseFailure) : Json :=
  .object [("file", .text f.file), ("error", .text f.message), ("type", .text "parse_error")]

def toJson (r : AnalysisReport) : Json :=
  .object [("summary", r.summary), ("details", Issue.grouped r.issues),
    ("parseErrors", .list (r.failures.map failureJson)),
    ("recommendations", .list (r.recommendations.map Recommendation.toJson))]

end AnalysisReport

end Deadwood
