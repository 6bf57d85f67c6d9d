import Deadwood.Analysis.Report

/-!
The index and its parts as JSON. What is an issue by itself is written as that issue.
-/
namespace Deadwood

def Symbol.toJson (s : Symbol) : Json :=
  .object [("name", .text s.name), ("file", .text s.file), ("line", .nat s.line),
    ("kind", .text s.kind.name)]

def ChannelFact.toJson (f : ChannelFact) : Json :=
  .object [("channel", .text f.channel), ("file", .text f.file), ("line", .nat f.line),
    ("role", .text f.role.name)]

def Usage.toJson (u : Usage) : Json := .texts [u.name, u.file]

def Index.toJson (i : Index) : Json :=
  .object [
    ("symbols", .list (i.symbols.map Symbol.toJson)),
    ("usages", .list (i.usages.map Usage.toJson)),
    ("channelFacts", .list (i.facts.map ChannelFact.toJson)),
    ("duplicates", .list (i.duplicates.map fun g => (Issue.duplicateGroup g).toJson)),
    ("deadCode", .list (i.deadCode.map fun d => (Issue.deadCodePath d).toJson)),
    ("complexFunctions", .list (i.complexFunctions.map fun c => (Issue.complexFunction c).toJson)),
    ("parseErrors", .list (i.failures.map AnalysisReport.failureJson)),
    ("filesIndexed", .nat i.fileCount)]

end Deadwood
