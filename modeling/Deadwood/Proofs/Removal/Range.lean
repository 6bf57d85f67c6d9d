import Deadwood.Proofs.Removal.WellFormed

/-!
The bytes that go with a node. Its span runs over siblings: the node, comments and at most the one
semicolon (`exists_span`). Around the span only blanks of the line go along, which no node touches,
so a node is outside the range or below a sibling that goes as a whole (`apart_or_below`).
-/
namespace Deadwood.Range

variable {source : Bytes} {tree : Node} {p q r : Place}

/-- Blanks, then a line feed or the end of the source. -/
def EndsLine (source : Bytes) (offset stop : Nat) : Prop :=
  ∃ gap feed rest, source.drop offset = gap ++ (feed ++ rest) ∧
    stop = offset + gap.length + feed.length ∧ (∀ b ∈ gap, Bytes.isBlankInLine b = true) ∧
    (feed = [Bytes.lineFeed] ∨ feed = [] ∧ rest = [])

private theorem eq_or_of_match {offset stop : Nat} {left : Bytes}
    (h : (match left with
      | [] => some offset
      | b :: _ => if b = Bytes.lineFeed then some (offset + 1) else none) = some stop) :
    (left = [] ∧ stop = offset) ∨ ∃ rest, left = Bytes.lineFeed :: rest ∧ stop = offset + 1 := by
  cases left with
  | nil =>
    simp only [Option.some.injEq] at h
    exact .inl ⟨rfl, h.symm⟩
  | cons b rest =>
    dsimp only at h
    split at h
    · next hb =>
      simp only [Option.some.injEq] at h
      exact .inr ⟨rest, by rw [hb], h.symm⟩
    · cases h

/-- Spaces and tabs, then a line break, or a last one without its line feed, or none at the end of
the source. -/
theorem exists_lineBreak {offset stop : Nat} (h : lineEnd? source offset = some stop) :
    ∃ blanks feed rest, source.drop offset = blanks ++ (feed ++ rest) ∧
      stop = offset + blanks.length + feed.length ∧ (∀ b ∈ blanks, Bytes.isSpaceOrTab b = true) ∧
      (feed = [Bytes.lineFeed] ∨ feed = [Bytes.carriageReturn, Bytes.lineFeed] ∨
        (feed = [] ∨ feed = [Bytes.carriageReturn]) ∧ rest = []) := by
  unfold lineEnd? at h
  dsimp only at h
  generalize hblanks : (source.drop offset).takeWhile Bytes.isSpaceOrTab = blanks at h
  have hall : ∀ b ∈ blanks, Bytes.isSpaceOrTab b = true := by
    rw [← List.all_eq_true, ← hblanks]
    exact List.all_takeWhile
  have hsplit : source.drop offset = blanks ++ (source.drop offset).drop blanks.length := by
    rw [← hblanks]
    exact (List.prefix_append_drop (List.takeWhile_prefix _))
  generalize (source.drop offset).drop blanks.length = rest at h hsplit
  by_cases hcr : rest.head? = some Bytes.carriageReturn
  · rw [if_pos hcr] at h
    obtain ⟨rest, rfl⟩ := List.head?_eq_some_iff.1 hcr
    rcases eq_or_of_match h with ⟨hnil, hstop⟩ | ⟨rest', hfeed, hstop⟩
    · obtain rfl : rest = [] := hnil
      exact ⟨blanks, [Bytes.carriageReturn], [], hsplit, hstop, hall, .inr (.inr ⟨.inr rfl, rfl⟩)⟩
    · obtain rfl : rest = Bytes.lineFeed :: rest' := hfeed
      exact ⟨blanks, [Bytes.carriageReturn, Bytes.lineFeed], rest', hsplit, hstop, hall,
        .inr (.inl rfl)⟩
  · rw [if_neg hcr] at h
    rcases eq_or_of_match h with ⟨rfl, hstop⟩ | ⟨rest', rfl, hstop⟩
    · exact ⟨blanks, [], [], hsplit, hstop, hall, .inr (.inr ⟨.inl rfl, rfl⟩)⟩
    · exact ⟨blanks, [Bytes.lineFeed], rest', hsplit, hstop, hall, .inl rfl⟩

theorem endsLine_of_lineEnd? {offset stop : Nat} (h : lineEnd? source offset = some stop) :
    EndsLine source offset stop := by
  obtain ⟨blanks, feed, rest, hsplit, rfl, hblanks, hfeed⟩ := exists_lineBreak h
  have hgap : ∀ b ∈ blanks, Bytes.isBlankInLine b = true := fun b hb => by
    simp [Bytes.isBlankInLine, hblanks b hb]
  have hgap' : ∀ b ∈ blanks ++ [Bytes.carriageReturn], Bytes.isBlankInLine b = true := by
    intro b hb
    rcases List.mem_append.1 hb with hb | hb
    · exact hgap b hb
    · simp [Bytes.isBlankInLine, List.mem_singleton.1 hb]
  -- A carriage return counts as a blank of the line.
  rcases hfeed with rfl | rfl | ⟨rfl | rfl, rfl⟩
  · exact ⟨blanks, _, rest, hsplit, rfl, hgap, .inl rfl⟩
  · exact ⟨blanks ++ [Bytes.carriageReturn], [Bytes.lineFeed], rest, by simpa using hsplit,
      by simp [Nat.add_assoc], hgap', .inl rfl⟩
  · exact ⟨blanks, [], [], hsplit, rfl, hgap, .inr ⟨rfl, rfl⟩⟩
  · exact ⟨blanks ++ [Bytes.carriageReturn], [], [], by simpa using hsplit,
      by simp [Nat.add_assoc], hgap', .inr ⟨rfl, rfl⟩⟩

namespace EndsLine

variable {offset stop : Nat}

theorem le (h : EndsLine source offset stop) : offset ≤ stop := by
  obtain ⟨gap, feed, rest, -, rfl, -⟩ := h
  omega

theorem stop_le (h : EndsLine source offset stop) (ho : offset ≤ source.length) :
    stop ≤ source.length := by
  obtain ⟨gap, feed, rest, hsplit, rfl, -⟩ := h
  have hlen := congrArg List.length hsplit
  simp only [List.length_drop, List.length_append] at hlen
  omega

private theorem slice_eq {gap rest : Bytes} (hsplit : source.drop offset = gap ++ rest) (n : Nat) :
    source.slice offset (offset + n) = (gap ++ rest).take n := by
  rw [Bytes.slice, List.drop_take, hsplit, Nat.add_sub_cancel_left]

theorem isBlank (h : EndsLine source offset stop) :
    ∀ b ∈ source.slice offset stop, Bytes.isBlank b = true := by
  obtain ⟨gap, feed, rest, hsplit, rfl, hgap, hfeed⟩ := h
  intro b hb
  rw [Nat.add_assoc, slice_eq hsplit, List.take_length_add_append, List.take_left,
    List.mem_append] at hb
  rcases hb with hb | hb
  · simp [Bytes.isBlank, hgap b hb]
  · rcases hfeed with rfl | ⟨rfl, -⟩
    · simp [Bytes.isBlank, List.mem_singleton.1 hb]
    · simp at hb

/-- Only the last byte can be a line feed. -/
theorem isBlankInLine (h : EndsLine source offset stop) {k : Nat} (hk : k < stop) :
    ∀ b ∈ source.slice offset k, Bytes.isBlankInLine b = true := by
  obtain ⟨gap, feed, rest, hsplit, rfl, hgap, hfeed⟩ := h
  intro b hb
  by_cases hok : offset ≤ k
  · obtain ⟨n, rfl⟩ := Nat.exists_eq_add_of_le hok
    -- Only the line feed comes after the gap, and it is the last byte.
    have hn : n ≤ gap.length := by
      rcases hfeed with rfl | ⟨rfl, -⟩
      · simp only [List.length_singleton] at hk
        omega
      · simp only [List.length_nil] at hk
        omega
    rw [slice_eq hsplit, List.take_append_of_le_length hn] at hb
    exact hgap b (List.mem_of_mem_take hb)
  · rw [Bytes.slice_eq_nil (by omega)] at hb
    cases hb

end EndsLine

/-- A range grows by blanks: before it by some of its first line, after it up to a line's end. -/
structure Widens (source : Bytes) (inner outer : Range) : Prop where
  start_le : outer.start ≤ inner.start
  before : ∀ b ∈ source.slice outer.start inner.start, Bytes.isSpaceOrTab b = true
  le_stop : inner.stop ≤ outer.stop
  stop_le : inner.stop ≤ source.length → outer.stop ≤ source.length
  after : ∀ b ∈ source.slice inner.stop outer.stop, Bytes.isBlank b = true
  inLine : ∀ k < outer.stop, ∀ b ∈ source.slice inner.stop k, Bytes.isBlankInLine b = true

theorem Widens.refl (source : Bytes) (r : Range) : Widens source r r where
  start_le := le_rfl
  before := by simp [Bytes.slice_self]
  le_stop := le_rfl
  stop_le := id
  after := by simp [Bytes.slice_self]
  inLine k hk := by simp [Bytes.slice_eq_nil hk.le]

theorem widens_toWholeLines (source : Bytes) (r : Range) :
    Widens source r (toWholeLines source r) := by
  unfold toWholeLines
  split
  · next hstart =>
    split
    · next stop hstop =>
      have hline := endsLine_of_lineEnd? hstop
      exact {
        start_le := source.lineStart_le r.start
        before := List.all_eq_true.1 hstart
        le_stop := hline.le
        stop_le := hline.stop_le
        after := hline.isBlank
        inLine := fun _ hk => hline.isBlankInLine hk }
    · exact .refl source r
  · exact .refl source r

/-- A node that does not end in a blank is not reached from the right. -/
theorem Widens.stop_le_start {inner outer : Range} (h : Widens source inner outer) {n : Node}
    (hle : n.stop ≤ inner.start) (hlen : n.stop ≤ source.length)
    (hclear : (∀ b ∈ source.slice n.stop inner.start, Bytes.isSpaceOrTab b = true) →
      ∀ b ∈ source.slice (n.stop - 1) n.stop, Bytes.isSpaceOrTab b = false) :
    n.stop ≤ outer.start := by
  -- The last byte of a node that is reached would be a blank of the line.
  by_contra hlt
  have hblank := hclear fun b hb => h.before b (Bytes.slice_subset (by omega) le_rfl hb)
  obtain ⟨b, hb⟩ : ∃ b, b ∈ source.slice (n.stop - 1) n.stop :=
    Bytes.exists_mem_slice (by omega) (by omega)
  have hin := h.before b (Bytes.slice_subset (by omega) hle hb)
  rw [hblank b hb] at hin
  cases hin

/-- A node that does not begin with a blank is not reached from the left. -/
theorem Widens.stop_le_start' {inner outer : Range} (h : Widens source inner outer) {n : Node}
    (hne : n.start < n.stop) (hle : inner.stop ≤ n.start) (hlen : n.stop ≤ source.length)
    (hclear : (∀ b ∈ source.slice inner.stop n.start, Bytes.isBlankInLine b = true) →
      ∀ b ∈ source.slice n.start (n.start + 1), Bytes.isBlank b = false) :
    outer.stop ≤ n.start := by
  by_contra hlt
  have hblank := hclear (h.inLine n.start (by omega))
  obtain ⟨b, hb⟩ : ∃ b, b ∈ source.slice n.start (n.start + 1) :=
    Bytes.exists_mem_slice (by omega) (by omega)
  have hin := h.after b (Bytes.slice_subset hle (by omega) hb)
  rw [hblank b hb] at hin
  cases hin

/-- A sibling that goes with a place: the place, a comment, or the semicolon after it. -/
def GoesAlong (p : Place) (withSemicolon : Bool) (s : Place) : Prop :=
  s = p ∨ (s.parent? = p.parent? ∧ s.node.type = "comment") ∨
    (withSemicolon = true ∧ p.next? = some s ∧ s.node.type = ";")

theorem preceding_childAt {i : Nat} {n : Node} :
    ((p.childAt i n).preceding.map (·.node)) = (p.node.children.take i).reverse := by
  rw [← Place.children_nodes, ← List.map_take, ← List.map_reverse]
  rfl

theorem next?_childAt {i : Nat} {n : Node} :
    (p.childAt i n).next? = some q ↔
      ∃ m, p.node.children[i + 1]? = some m ∧ q = p.childAt (i + 1) m := by
  have hnext : (p.childAt i n).next? = p.children[i + 1]? := by
    rw [← List.head?_drop]
    rfl
  rw [hnext, Place.children, List.getElem?_mapIdx, Option.map_eq_some_iff]
  simp only [eq_comm]

/-- The attached start is that of the first of the comments right before, or stays. -/
theorem attachedStart_reverse_take (source : Bytes) (row start : Nat) (ns : List Node) {k : Nat}
    (hk : k ≤ ns.length) :
    ∃ i ≤ k, (∀ j m, i ≤ j → j < k → ns[j]? = some m → m.type = "comment") ∧
      (i = k ∧ attachedStart source row start (ns.take k).reverse = start ∨
        ∃ m, ns[i]? = some m ∧ attachedStart source row start (ns.take k).reverse = m.start) := by
  -- The siblings are gone through backwards, so the induction is on how many there are.
  induction k generalizing row start with
  | zero => exact ⟨0, le_rfl, fun j m _ hj => absurd hj (Nat.not_lt_zero j), .inl ⟨rfl, rfl⟩⟩
  | succ k ih =>
    have hget : ns[k]? = some ns[k] := List.getElem?_eq_getElem hk
    rw [List.take_succ_eq_append_getElem hk, List.reverse_append, List.reverse_singleton,
      List.singleton_append, attachedStart]
    split
    · next hc =>
      obtain ⟨i, hi, hcomments, hstart⟩ :=
        ih (ns[k].firstRow source) ns[k].start (Nat.le_of_succ_le hk)
      refine ⟨i, Nat.le_succ_of_le hi, ?_, ?_⟩
      · intro j m hij hjk hj
        rcases Nat.lt_succ_iff_lt_or_eq.1 hjk with hjk | rfl
        · exact hcomments j m hij hjk hj
        · rw [hget, Option.some.injEq] at hj
          exact hj ▸ hc.1
      · rcases hstart with ⟨rfl, hstart⟩ | hstart
        · exact .inr ⟨ns[i], hget, hstart⟩
        · exact .inr hstart
    · exact ⟨k + 1, le_rfl, fun j m hij hj => absurd hij (Nat.not_le.2 hj), .inl ⟨rfl, rfl⟩⟩

theorem exists_lastToken {k : Nat} {n : Node} (hn : p.node.children[k]? = some n)
    (withSemicolon : Bool) :
    ∃ j m, k ≤ j ∧ p.node.children[j]? = some m ∧
      lastToken (p.childAt k n) withSemicolon = p.childAt j m ∧
      ∀ i m, k ≤ i → i ≤ j → p.node.children[i]? = some m →
        GoesAlong (p.childAt k n) withSemicolon (p.childAt i m) := by
  have hself : ∀ i m, k ≤ i → i ≤ k → p.node.children[i]? = some m →
      GoesAlong (p.childAt k n) withSemicolon (p.childAt i m) := by
    intro i m hki hik hi
    obtain rfl := le_antisymm hki hik
    rw [hn, Option.some.injEq] at hi
    exact .inl (hi ▸ rfl)
  unfold lastToken
  split
  · next next hnext =>
    split
    · next hc =>
      obtain ⟨m, hm, rfl⟩ := next?_childAt.1 hnext
      refine ⟨k + 1, m, Nat.le_succ k, hm, rfl, ?_⟩
      intro i m' hki hik hi
      rcases Nat.le_succ_iff.1 hik with hik | rfl
      · exact hself i m' hki hik hi
      · rw [hm, Option.some.injEq] at hi
        exact .inr (.inr ⟨hc.1, hi ▸ hnext, hi ▸ hc.2⟩)
    · exact ⟨k, n, le_rfl, hn, rfl, hself⟩
  · exact ⟨k, n, le_rfl, hn, rfl, hself⟩

theorem exists_trailingStop (source : Bytes) {j : Nat} {m : Node}
    (hm : p.node.children[j]? = some m) :
    ∃ i b, j ≤ i ∧ p.node.children[i]? = some b ∧
      trailingStop source (p.childAt j m) = b.stop ∧
      ∀ l c, j < l → l ≤ i → p.node.children[l]? = some c → c.type = "comment" := by
  unfold trailingStop
  split
  · next next hnext =>
    split
    · next hc =>
      obtain ⟨b, hb, rfl⟩ := next?_childAt.1 hnext
      refine ⟨j + 1, b, Nat.le_succ j, hb, rfl, ?_⟩
      intro l c hjl hlj hl
      obtain rfl : l = j + 1 := le_antisymm hlj hjl
      rw [hb, Option.some.injEq] at hl
      exact hl ▸ hc.1
    · exact ⟨j, m, le_rfl, hm, rfl, fun l c hjl hlj => absurd hjl (Nat.not_lt.2 hlj)⟩
  · exact ⟨j, m, le_rfl, hm, rfl, fun l c hjl hlj => absurd hjl (Nat.not_lt.2 hlj)⟩

/-- A span reaches from one sibling to another, and all of these go along. -/
theorem exists_span (source : Bytes) {k : Nat} {n : Node} (hn : p.node.children[k]? = some n)
    (withSemicolon : Bool) :
    ∃ i j first last, i ≤ k ∧ k ≤ j ∧ p.node.children[i]? = some first ∧
      p.node.children[j]? = some last ∧
      span source (p.childAt k n) withSemicolon = ⟨first.start, last.stop⟩ ∧
      ∀ l m, i ≤ l → l ≤ j → p.node.children[l]? = some m →
        GoesAlong (p.childAt k n) withSemicolon (p.childAt l m) := by
  obtain ⟨t, token, hkt, ht, htoken, halong⟩ := exists_lastToken hn withSemicolon
  obtain ⟨j, last, htj, hj, hlast, hafter⟩ := exists_trailingStop source ht
  have hk : k ≤ p.node.children.length := (List.getElem?_eq_some_iff.1 hn).1.le
  obtain ⟨i, hik, hbefore, hstart⟩ :=
    attachedStart_reverse_take source (n.firstRow source) n.start p.node.children hk
  obtain ⟨first, hi, hfirst⟩ : ∃ first, p.node.children[i]? = some first ∧
      attachedStart source (n.firstRow source) n.start (p.node.children.take k).reverse =
        first.start := by
    rcases hstart with ⟨rfl, hstart⟩ | hstart
    · exact ⟨n, hn, hstart⟩
    · exact hstart
  refine ⟨i, j, first, last, hik, hkt.trans htj, hi, hj, ?_, ?_⟩
  -- Comments come before the node, then its tokens, then a comment again.
  · unfold span
    rw [preceding_childAt, htoken, hlast, ← hfirst]
    rfl
  · intro l m hil hlj hl
    rcases lt_or_ge l k with hlk | hkl
    · exact .inr (.inl ⟨rfl, hbefore l m hil hlk hl⟩)
    · rcases le_or_gt l t with hlt | htl
      · exact halong l m hkl hlt hl
      · exact .inr (.inl ⟨rfl, hafter l m htl hlj hl⟩)

theorem isListed_childAt {i : Nat} {n : Node} : (p.childAt i n).isListed =
    (Plan.holdsStatements p.node.type || p.node.type = "class_body") := by
  simp [Place.isListed, Plan.isStatementPlace, Place.parentType?, Place.parent?_childAt]

theorem exists_childAt_of_isListed (hp : Place.Of tree p) (h : p.isListed = true) :
    ∃ q k n, Place.Of tree q ∧ q.node.children[k]? = some n ∧ p = q.childAt k n := by
  cases hp with
  | top => simp [Place.isListed, Plan.isStatementPlace, Place.parentType?, Place.parent?,
      Place.root] at h
  | child hq hn => exact ⟨_, _, _, hq, hn, rfl⟩

/-- A range covers every sibling of its span. -/
theorem exists_ofRemoval (hq : Place.Of tree q) (h : tree.isLaidOut) (source : Bytes) {k : Nat}
    {n : Node} (hn : q.node.children[k]? = some n) (withSemicolon : Bool) :
    ∃ i j first last, i ≤ k ∧ k ≤ j ∧ q.node.children[i]? = some first ∧
      q.node.children[j]? = some last ∧
      Widens source ⟨first.start, last.stop⟩ (ofRemoval source (q.childAt k n) withSemicolon) ∧
      ∀ l m, i ≤ l → l ≤ j → q.node.children[l]? = some m →
        GoesAlong (q.childAt k n) withSemicolon (q.childAt l m) ∧
          (ofRemoval source (q.childAt k n) withSemicolon).start ≤ m.start ∧
          m.stop ≤ (ofRemoval source (q.childAt k n) withSemicolon).stop := by
  obtain ⟨i, j, first, last, hik, hkj, hi, hj, hspan, halong⟩ := exists_span source hn withSemicolon
  have hw := widens_toWholeLines source (span source (q.childAt k n) withSemicolon)
  rw [← ofRemoval, hspan] at hw
  refine ⟨i, j, first, last, hik, hkj, hi, hj, hw, ?_⟩
  intro l m hil hlj hl
  have hstart := (hq.children_ordered h hil hi hl).1
  have hstop := (hq.children_ordered h hlj hl hj).2
  exact ⟨halong l m hil hlj hl, hw.start_le.trans hstart, hstop.trans hw.le_stop⟩

theorem covers (h : WellFormed source tree) (hp : Place.Of tree p) (hlisted : p.isListed = true)
    (withSemicolon : Bool) :
    (ofRemoval source p withSemicolon).start ≤ p.node.start ∧
      p.node.stop ≤ (ofRemoval source p withSemicolon).stop := by
  obtain ⟨q, k, n, hq, hn, rfl⟩ := exists_childAt_of_isListed hp hlisted
  obtain ⟨i, j, first, last, hik, hkj, hi, hj, hw, halong⟩ :=
    exists_ofRemoval hq h.isLaidOut source hn withSemicolon
  exact (halong k n hik hkj hn).2

/-- A nonempty node that is not above the removed one lies outside the range, or below a sibling
that goes along and is covered. -/
theorem apart_or_below (h : WellFormed source tree) (hp : Place.Of tree p)
    (hlisted : p.isListed = true) (hr : Place.Of tree r) (hne : r.node.start < r.node.stop)
    (hnot : ∀ q, p.parent? = some q → ¬ r.address <:+ q.address) (withSemicolon : Bool) :
    r.node.stop ≤ (ofRemoval source p withSemicolon).start ∨
      (ofRemoval source p withSemicolon).stop ≤ r.node.start ∨
      ∃ s, Place.Of tree s ∧ GoesAlong p withSemicolon s ∧ s.address <:+ r.address ∧
        (ofRemoval source p withSemicolon).start ≤ s.node.start ∧
        s.node.stop ≤ (ofRemoval source p withSemicolon).stop := by
  obtain ⟨q, k, n, hq, hn, rfl⟩ := exists_childAt_of_isListed hp hlisted
  obtain ⟨i, j, first, last, hik, hkj, hi, hj, hw, halong⟩ :=
    exists_ofRemoval hq h.isLaidOut source hn withSemicolon
  have hlen := h.stop_le_length hr
  rw [isListed_childAt] at hlisted
  have hmem : ∀ {l m}, q.node.children[l]? = some m →
      q.childAt l m ∈ Place.preorder tree ∧ (q.childAt l m).isListed = true :=
    fun hl => ⟨Place.mem_preorder.2 (hq.child hl), isListed_childAt.trans hlisted⟩
  rcases hq.outside_or_below hr h.isLaidOut (hnot q rfl) hi hj with hlt | hgt | hbelow
  · exact .inl (hw.stop_le_start hlt hlen
      (h.clearBefore _ (hmem hi).1 (hmem hi).2 _ hr.mem_nodes hne hlt))
  · exact .inr (.inl (hw.stop_le_start' hne hgt hlen
      (h.clearAfter _ (hmem hj).1 (hmem hj).2 _ hr.mem_nodes hne hgt)))
  · obtain ⟨l, m, hil, hlj, hl, hs⟩ := hbelow
    obtain ⟨ha, hstart, hstop⟩ := halong l m hil hlj hl
    exact .inr (.inr ⟨q.childAt l m, hq.child hl, ha, hs, hstart, hstop⟩)

/-- A range within the source, cut between characters. -/
theorem isBoundary_ofRemoval (h : WellFormed source tree) (hc : OnCharacters source tree)
    (hp : Place.Of tree p) (hlisted : p.isListed = true) (withSemicolon : Bool) :
    Utf8.isBoundary source (ofRemoval source p withSemicolon).start = true ∧
      Utf8.isBoundary source (ofRemoval source p withSemicolon).stop = true := by
  obtain ⟨q, k, n, hq, hn, rfl⟩ := exists_childAt_of_isListed hp hlisted
  obtain ⟨i, j, first, last, hik, hkj, hi, hj, hw, -⟩ :=
    exists_ofRemoval hq h.isLaidOut source hn withSemicolon
  have hfirst := hc _ (hq.child hi).mem_nodes
  have hlast := hc _ (hq.child hj).mem_nodes
  refine ⟨Utf8.isBoundary_of_ascii' hfirst.1 hw.start_le ?_,
    Utf8.isBoundary_of_ascii hlast.2 hw.le_stop ?_⟩
  · intro b hb
    exact Bytes.isAscii_of_isBlank (by simp [Bytes.isBlank, Bytes.isBlankInLine, hw.before b hb])
  · exact fun b hb => Bytes.isAscii_of_isBlank (hw.after b hb)

/-- A range starts before it stops, within the source. -/
theorem ofRemoval_fits (h : WellFormed source tree) (hp : Place.Of tree p)
    (hlisted : p.isListed = true) (withSemicolon : Bool) :
    (ofRemoval source p withSemicolon).start ≤ (ofRemoval source p withSemicolon).stop ∧
      (ofRemoval source p withSemicolon).stop ≤ source.length := by
  have hcovers := covers h hp hlisted withSemicolon
  refine ⟨(hcovers.1.trans (hp.start_le_stop h.isLaidOut)).trans hcovers.2, ?_⟩
  obtain ⟨q, k, n, hq, hn, rfl⟩ := exists_childAt_of_isListed hp hlisted
  obtain ⟨i, j, first, last, -, -, -, hj, hw, -⟩ :=
    exists_ofRemoval hq h.isLaidOut source hn withSemicolon
  exact hw.stop_le (h.stop_le_length (hq.child hj))

end Deadwood.Range
