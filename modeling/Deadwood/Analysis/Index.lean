import Deadwood.Analysis.Complexity
import Deadwood.Analysis.DeadCode
import Deadwood.Analysis.Options
import Deadwood.Analysis.Reference
import Deadwood.Syntax.Source

/-!
The index of a set of parsed files, built file by file in the order of their names. A symbol is
kept under its name and its last definition stands.
-/
namespace Deadwood

/-- A file left out of the analysis. -/
structure ParseFailure where
  file : String
  message : String
  deriving DecidableEq, Repr

structure Index where
  symbols : List Symbol := []
  usages : List Usage := []
  facts : List ChannelFact := []
  duplicates : List DuplicateGroup := []
  deadCode : List DeadCode := []
  complexFunctions : List ComplexFunction := []
  failures : List ParseFailure := []
  fileCount : Nat := 0
  deriving DecidableEq, Repr

namespace Index

def nameLe (a b : SourceFile) : Bool := (compare a.name b.name).isLE

def lastDefinitions (symbols : List Symbol) : List Symbol :=
  (symbols.foldl (fun l s => Keyed.setLast l s.name s) []).map (·.2)

def symbolsOf (files : List SourceFile) : List Symbol :=
  lastDefinitions (files.flatMap fun f => Symbol.extract f.source f.name f.tree)

def usagesOf (known : List String) (files : List SourceFile) : List Usage :=
  (files.flatMap fun f => Reference.usages known f.source f.name f.tree).eraseDups.mergeSort Usage.le

/-- All passes over the files, which come in order. -/
def ofOrdered (options : AnalysisOptions) (files : List SourceFile) : Index :=
  let symbols := symbolsOf files
  { symbols
    usages := usagesOf (symbols.map (·.name)) files
    facts := files.flatMap fun f => Channel.facts options.forms f.source f.name f.tree
    duplicates := DuplicateGroup.collect <| files.flatMap fun f =>
      Fingerprint.members f.source f.name options.minDuplicateLines f.tree
    deadCode := files.flatMap fun f => DeadCode.reports f.source f.name f.tree
    complexFunctions := files.flatMap fun f =>
      Complexity.reports options.maxComplexity f.source f.name f.tree
    fileCount := files.length }

def build (options : AnalysisOptions) (files : List SourceFile) (failures : List ParseFailure) :
    Index :=
  { ofOrdered options (files.mergeSort nameLe) with
    failures := failures.mergeSort fun a b => (compare a.file b.file).isLE }

end Index

end Deadwood
