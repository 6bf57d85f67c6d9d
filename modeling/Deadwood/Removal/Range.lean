import Deadwood.Syntax.Place

/-!
The bytes to delete with a node: its attached comments, its semicolon, a comment on its last row
and, where nothing else is left on the line, the whole line.
-/
namespace Deadwood

structure Range where
  start : Nat
  stop : Nat
  deriving DecidableEq, Repr

namespace Range

/-- Where a line ends that holds only blanks from an offset on: after its line break, or at the end
of the source. -/
def lineEnd? (source : Bytes) (offset : Nat) : Option Nat :=
  let rest := source.drop offset
  let blanks := rest.takeWhile Bytes.isSpaceOrTab
  let rest := rest.drop blanks.length
  let (offset, rest) :=
    if rest.head? = some Bytes.carriageReturn then (offset + blanks.length + 1, rest.drop 1)
    else (offset + blanks.length, rest)
  match rest with
  | [] => some offset
  | b :: _ => if b = Bytes.lineFeed then some (offset + 1) else none

/-- A range alone on its lines grows to whole lines; any other stays as it is. -/
def toWholeLines (source : Bytes) (r : Range) : Range :=
  if source.startsLine r.start then
    match lineEnd? source r.stop with
    | some stop => ⟨source.lineStart r.start, stop⟩
    | none => r
  else r

/-- Start of the topmost comment attached above a node: each on lines of its own, the last row of
one just above the first row of the next. -/
def attachedStart (source : Bytes) (firstRow start : Nat) : List Node → Nat
  | [] => start
  | n :: rest =>
    if n.type = "comment" ∧ n.lastRow source + 1 = firstRow ∧ source.startsLine n.start then
      attachedStart source (n.firstRow source) n.start rest
    else start

/-- The node, or the semicolon right after it if that goes along. -/
def lastToken (p : Place) (withSemicolon : Bool) : Place :=
  match p.next? with
  | some next => if withSemicolon ∧ next.node.type = ";" then next else p
  | none => p

def trailingStop (source : Bytes) (last : Place) : Nat :=
  match last.next? with
  | some next =>
    if next.node.type = "comment" ∧ next.node.firstRow source = last.node.lastRow source then
      next.node.stop
    else last.node.stop
  | none => last.node.stop

/-- From the topmost attached comment to the end of the node, its semicolon or the comment on the
same row. -/
def span (source : Bytes) (p : Place) (withSemicolon : Bool) : Range :=
  { start := attachedStart source (p.node.firstRow source) p.node.start (p.preceding.map (·.node))
    stop := trailingStop source (lastToken p withSemicolon) }

def ofRemoval (source : Bytes) (p : Place) (withSemicolon : Bool) : Range :=
  toWholeLines source (span source p withSemicolon)

end Range

end Deadwood
