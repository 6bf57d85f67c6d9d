import Deadwood.Proofs.Removal.Range
import Deadwood.Proofs.Text.Line
import Mathlib.Data.List.Chain

/-!
What of its lines a range takes. The span of a node runs from the topmost comment attached above it
to its end, its semicolon or the comment behind. Around the span a range takes the rest of its lines
if only blanks are there, and else nothing (`takes_whole_lines`).
-/
namespace Deadwood.Range

open Bytes (lineFeed carriageReturn isSpaceOrTab AtLineStart lines)

section Line

variable {source : Bytes} {tree : Node} {p q : Place} {s r : Range}

/-! ### The span -/

/-- A comment on lines of its own, the last of them right above the first of a node. -/
def Tops (source : Bytes) (below above : Node) : Prop :=
  above.type = "comment" ∧ above.lastRow source + 1 = below.firstRow source ∧
    source.startsLine above.start = true

/-- All comments that are attached above a node, one on top of the other, and the topmost node. -/
def StartsAt (source : Bytes) (n : Node) (preceding : List Node) (start : Nat) : Prop :=
  ∃ attached others top, preceding = attached ++ others ∧
    (n :: attached).IsChain (Tops source) ∧ (n :: attached).getLast? = some top ∧
    (∀ m ∈ others.head?, ¬ Tops source top m) ∧ start = top.start

theorem startsAt_attachedStart (source : Bytes) (n : Node) (preceding : List Node) :
    StartsAt source n preceding (attachedStart source (n.firstRow source) n.start preceding) := by
  induction preceding generalizing n with
  | nil => exact ⟨[], [], n, rfl, List.isChain_singleton n, rfl, by simp, rfl⟩
  | cons m rest ih =>
    rw [attachedStart]
    split
    · next hm =>
      obtain ⟨attached, others, top, hsplit, hchain, htop, hothers, hstart⟩ := ih m
      refine ⟨m :: attached, others, top, by rw [hsplit, List.cons_append], ?_, ?_, hothers, hstart⟩
      · exact List.isChain_cons_cons.2 ⟨hm, hchain⟩
      · rw [List.getLast?_cons_cons, htop]
    · next hm =>
      refine ⟨[], m :: rest, n, rfl, List.isChain_singleton n, rfl, fun m' hm' => ?_, rfl⟩
      obtain rfl : m = m' := Option.some.inj hm'
      exact hm

/-- The semicolon right after a place. -/
def ClosedBy (p next : Place) : Prop := p.next? = some next ∧ next.node.type = ";"

/-- The comment right after a place, on its last row. -/
def NotedBy (source : Bytes) (p next : Place) : Prop :=
  p.next? = some next ∧ next.node.type = "comment" ∧
    next.node.firstRow source = p.node.lastRow source

/-- The end of a node, of its semicolon if that goes along, or of the comment behind. -/
def StopsAt (source : Bytes) (p : Place) (withSemicolon : Bool) (stop : Nat) : Prop :=
  ∃ last, (withSemicolon = true ∧ ClosedBy p last ∨
      last = p ∧ ¬ (withSemicolon = true ∧ ∃ next, ClosedBy p next)) ∧
    ((∃ next, NotedBy source last next ∧ stop = next.node.stop) ∨
      stop = last.node.stop ∧ ∀ next, ¬ NotedBy source last next)

theorem lastToken_cases (p : Place) (withSemicolon : Bool) :
    withSemicolon = true ∧ ClosedBy p (lastToken p withSemicolon) ∨
      lastToken p withSemicolon = p ∧ ¬ (withSemicolon = true ∧ ∃ next, ClosedBy p next) := by
  unfold lastToken
  split
  · next next hnext =>
    split
    · next hc => exact .inl ⟨hc.1, hnext, hc.2⟩
    · next hc =>
      refine .inr ⟨rfl, fun ⟨hwith, next', hnext', htype⟩ => hc ⟨hwith, ?_⟩⟩
      rw [hnext, Option.some.injEq] at hnext'
      exact hnext' ▸ htype
  · next hnext =>
    refine .inr ⟨rfl, fun ⟨_, next', hnext', _⟩ => ?_⟩
    rw [hnext] at hnext'
    cases hnext'

theorem trailingStop_cases (source : Bytes) (last : Place) :
    (∃ next, NotedBy source last next ∧ trailingStop source last = next.node.stop) ∨
      trailingStop source last = last.node.stop ∧ ∀ next, ¬ NotedBy source last next := by
  unfold trailingStop
  split
  · next next hnext =>
    split
    · next hc => exact .inl ⟨next, ⟨hnext, hc⟩, rfl⟩
    · next hc =>
      refine .inr ⟨rfl, fun next' ⟨hnext', hnote⟩ => hc ?_⟩
      rw [hnext, Option.some.injEq] at hnext'
      exact hnext' ▸ hnote
  · next hnext =>
    refine .inr ⟨rfl, fun next' ⟨hnext', _⟩ => ?_⟩
    rw [hnext] at hnext'
    cases hnext'

/-- From the topmost attached comment or the node to its end, its semicolon or the comment behind. -/
structure Spans (source : Bytes) (p : Place) (withSemicolon : Bool) (s : Range) : Prop where
  startsAt : StartsAt source p.node (p.preceding.map (·.node)) s.start
  stopsAt : StopsAt source p withSemicolon s.stop

theorem spans_span (source : Bytes) (p : Place) (withSemicolon : Bool) :
    Spans source p withSemicolon (span source p withSemicolon) where
  startsAt := startsAt_attachedStart source p.node _
  stopsAt := ⟨_, lastToken_cases p withSemicolon, trailingStop_cases source _⟩

/-- A span covers its node and lies within the source. -/
theorem span_within (h : tree.isLaidOut = true) (hlen : tree.stop ≤ source.length)
    (hp : Place.Of tree p) (withSemicolon : Bool) :
    (span source p withSemicolon).start ≤ p.node.start ∧
      p.node.stop ≤ (span source p withSemicolon).stop ∧
      (span source p withSemicolon).stop ≤ source.length := by
  cases hp with
  | top => exact ⟨le_rfl, le_rfl, hlen⟩
  | child hq hn =>
    obtain ⟨i, j, first, last, hik, hkj, hi, hj, hspan, -⟩ := exists_span source hn withSemicolon
    have hstop := ((hq.child hj).within .top h List.nil_suffix).2
    rw [hspan]
    exact ⟨(hq.children_ordered h hik hi hn).1, (hq.children_ordered h hkj hn hj).2,
      hstop.trans hlen⟩

/-! ### The lines -/

/-- Lines of the source with nothing but blanks around a span. -/
structure WholeLines (source : Bytes) (s r : Range) : Prop where
  starts : AtLineStart source r.start
  stops : AtLineStart source r.stop ∨ r.stop = source.length
  before : ∀ b ∈ source.slice r.start s.start, isSpaceOrTab b = true
  after : ∃ blanks feed, source.slice s.stop r.stop = blanks ++ feed ∧
    (∀ b ∈ blanks, isSpaceOrTab b = true) ∧
    (feed = [lineFeed] ∨ feed = [carriageReturn, lineFeed] ∨
      (feed = [] ∨ feed = [carriageReturn]) ∧ r.stop = source.length)

theorem wholeLines_of_lineEnd? {stop : Nat} (hs : s.stop ≤ source.length)
    (hstart : source.startsLine s.start = true) (hstop : lineEnd? source s.stop = some stop) :
    WholeLines source s ⟨source.lineStart s.start, stop⟩ := by
  obtain ⟨blanks, feed, rest, hsplit, rfl, hblanks, hfeed⟩ := exists_lineBreak hstop
  have hget : ∀ k, source[s.stop + k]? = (blanks ++ (feed ++ rest))[k]? := fun k => by
    rw [← hsplit, List.getElem?_drop]
  have hend : rest = [] → s.stop + blanks.length + feed.length = source.length := by
    rintro rfl
    have hlength := congrArg List.length hsplit
    simp only [List.length_drop, List.length_append, List.length_nil] at hlength
    omega
  refine ⟨Bytes.atLineStart_lineStart source s.start, ?_, List.all_eq_true.1 hstart,
    blanks, feed, ?_, hblanks, ?_⟩
  · rcases hfeed with rfl | rfl | ⟨-, hrest⟩
    · exact .inl (.inr ⟨s.stop + blanks.length, rfl, by simp [hget]⟩)
    · exact .inl (.inr ⟨s.stop + (blanks.length + 1), rfl, by simp [hget]⟩)
    · exact .inr (hend hrest)
  · rw [← List.append_assoc] at hsplit
    rw [Nat.add_assoc, ← List.length_append, Bytes.slice_of_drop_eq hsplit]
  · exact hfeed.imp_right fun h => h.imp_right fun h => ⟨h.1, hend h.2⟩

/-- A range grows only if blanks alone are before it on its line, and then to whole lines. -/
theorem toWholeLines_cases (hs : s.stop ≤ source.length) : toWholeLines source s = s ∨
    source.startsLine s.start = true ∧ WholeLines source s (toWholeLines source s) := by
  unfold toWholeLines
  split
  · next hstart =>
    split
    · next stop hstop => exact .inr ⟨hstart, wholeLines_of_lineEnd? hs hstart hstop⟩
    · exact .inl rfl
  · exact .inl rfl

/-- The lines of a source without a range are its lines without those of the range. -/
structure CutsLines (source : Bytes) (r : Range) : Prop where
  lines_eq : lines source = lines (source.take r.start) ++
    lines (source.slice r.start r.stop) ++ lines (source.drop r.stop)
  lines_rest : lines (source.take r.start ++ source.drop r.stop) =
    lines (source.take r.start) ++ lines (source.drop r.stop)

theorem WholeLines.cutsLines (h : WholeLines source s r) (hle : r.start ≤ r.stop) :
    CutsLines source r where
  lines_eq := by
    rw [← h.starts.lines_append, Bytes.take_append_slice source hle]
    rcases h.stops with hstop | hstop
    · rw [← hstop.lines_append, List.take_append_drop]
    · rw [hstop, List.take_length, List.drop_length]
      exact (List.append_nil _).symm
  lines_rest := h.starts.lines_append _

/-- Whole lines go or nothing but the span: a range covers the span of its node and either is this
span, or it takes whole lines with blanks and one line break around it. A line break goes along only
where nothing else stands before the span on its first line. -/
theorem takes_whole_lines (source : Bytes) (tree : Node) (h : tree.isLaidOut = true)
    (hlen : tree.stop ≤ source.length) (p : Place) (hp : p ∈ Place.preorder tree)
    (withSemicolon : Bool) :
    ∃ s r, Spans source p withSemicolon s ∧ ofRemoval source p withSemicolon = r ∧
      s.start ≤ p.node.start ∧ p.node.stop ≤ s.stop ∧
      r.start ≤ s.start ∧ s.stop ≤ r.stop ∧ r.stop ≤ source.length ∧
      (r = s ∨ WholeLines source s r ∧ CutsLines source r) ∧
      ∀ b ∈ source.slice r.start s.start ++ source.slice s.stop r.stop,
        b = lineFeed ∨ b = carriageReturn →
        ∀ i, lineFeed ∉ source.slice i s.start →
          ∀ c ∈ source.slice i s.start, isSpaceOrTab c = true := by
  have hp := Place.mem_preorder.1 hp
  obtain ⟨hstart, hstop, hwithin⟩ := span_within h hlen hp withSemicolon
  have hw := widens_toWholeLines source (span source p withSemicolon)
  refine ⟨_, _, spans_span source p withSemicolon, rfl, hstart, hstop, hw.start_le, hw.le_stop,
    hw.stop_le hwithin, ?_, ?_⟩
  · refine (toWholeLines_cases hwithin).imp_right fun ⟨_, hlines⟩ => ⟨hlines, hlines.cutsLines ?_⟩
    have hnode := hp.start_le_stop h
    exact (((hw.start_le.trans hstart).trans hnode).trans hstop).trans hw.le_stop
  · intro b hb _ i
    rcases toWholeLines_cases hwithin with heq | ⟨halone, -⟩
    · rw [ofRemoval, heq] at hb
      simp [Bytes.slice_self] at hb
    · exact Bytes.startsLine_iff.1 halone i

/-- The function goes with the comment on the line above it and with both line breaks. -/
theorem takes_whole_lines_sample : ∃ s r,
    Spans Sample.source ((Place.root Sample.tree).childAt 2 Sample.function) false s ∧
    ofRemoval Sample.source ((Place.root Sample.tree).childAt 2 Sample.function) false = r ∧
    r = ⟨26, 49⟩ ∧ r.start ≤ s.start ∧ s.stop ≤ r.stop ∧
    (r = s ∨ WholeLines Sample.source s r ∧ CutsLines Sample.source r) := by
  obtain ⟨s, r, hs, hr, -, -, hstart, hstop, -, hlines, -⟩ :=
    takes_whole_lines Sample.source Sample.tree Sample.wellFormed.isLaidOut
      Sample.wellFormed.stop_le ((Place.root Sample.tree).childAt 2 Sample.function)
      (Place.mem_preorder.2 (.child .top rfl)) false
  exact ⟨s, r, hs, hr, hr ▸ by decide +kernel, hstart, hstop, hlines⟩

end Line

end Deadwood.Range
