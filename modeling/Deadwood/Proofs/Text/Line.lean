import Deadwood.Proofs.Text.Slice

/-!
The lines of a byte string, each with the line feed that ends it, and cuts between them.
-/
namespace Deadwood.Bytes

variable {source : Bytes} {i j : Nat}

def lines : Bytes → List Bytes
  | [] => []
  | b :: rest =>
    if b = lineFeed then [b] :: lines rest
    else
      match lines rest with
      | [] => [[b]]
      | line :: others => (b :: line) :: others

theorem flatten_lines (source : Bytes) : (lines source).flatten = source := by
  induction source with
  | nil => rfl
  | cons b rest ih =>
    rw [lines]
    split
    · rw [List.flatten_cons, ih, List.singleton_append]
    · cases hrest : lines rest with
      | nil =>
        rw [hrest] at ih
        rw [← ih]
        rfl
      | cons line others =>
        rw [hrest] at ih
        rw [← ih]
        rfl

/-- A line feed ends a line, whatever comes after it. -/
theorem lines_append (before rest : Bytes) : lines (before ++ [lineFeed] ++ rest) =
    lines (before ++ [lineFeed]) ++ lines rest := by
  induction before with
  | nil => simp [lines]
  | cons b before ih =>
    rw [List.cons_append, List.cons_append, lines, lines, ih]
    split
    · rfl
    · cases hline : lines (before ++ [lineFeed]) with
      | nil =>
        have hflat := flatten_lines (before ++ [lineFeed])
        rw [hline] at hflat
        simp at hflat
      | cons line others => rfl

/-- At the start of the source or behind a line feed. -/
def AtLineStart (source : Bytes) (i : Nat) : Prop :=
  i = 0 ∨ ∃ k, i = k + 1 ∧ source[k]? = some lineFeed

theorem AtLineStart.lines_append (h : AtLineStart source i) (rest : Bytes) :
    lines (source.take i ++ rest) = lines (source.take i) ++ lines rest := by
  rcases h with rfl | ⟨k, rfl, hk⟩
  · rfl
  · rw [List.take_add_one, hk, Option.toList_some, Bytes.lines_append]

/-- The lines before an offset's line, and that line up to the offset. -/
theorem exists_lineStart (source : Bytes) (i : Nat) :
    ∃ before line, source.take i = before ++ line ∧ source.lineStart i = before.length ∧
      lineFeed ∉ line ∧ (before = [] ∨ ∃ others, before = others ++ [lineFeed]) := by
  generalize hline : (source.take i).reverse.takeWhile (· != lineFeed) = line
  generalize hbefore : (source.take i).reverse.dropWhile (· != lineFeed) = before
  have hsplit : source.take i = before.reverse ++ line.reverse := by
    rw [← List.reverse_append, ← hline, ← hbefore, List.takeWhile_append_dropWhile,
      List.reverse_reverse]
  refine ⟨before.reverse, line.reverse, hsplit, ?_, ?_, ?_⟩
  · have hlength := congrArg List.length hsplit
    rw [List.length_take, List.length_append, List.length_reverse, List.length_reverse] at hlength
    rw [lineStart, column, hline, hlength, Nat.add_sub_cancel, List.length_reverse]
  · intro hmem
    rw [List.mem_reverse, ← hline] at hmem
    simpa using List.all_eq_true.1 List.all_takeWhile lineFeed hmem
  · cases before with
    | nil => exact .inl rfl
    | cons b rest =>
      have hfeed := List.head?_dropWhile_not (· != lineFeed) (source.take i).reverse
      rw [hbefore] at hfeed
      exact .inr ⟨rest.reverse, by simpa using hfeed⟩

theorem atLineStart_lineStart (source : Bytes) (i : Nat) :
    AtLineStart source (source.lineStart i) := by
  obtain ⟨before, line, hsplit, hstart, -, rfl | ⟨others, rfl⟩⟩ := exists_lineStart source i
  · exact .inl hstart
  · refine .inr ⟨others.length, by simpa using hstart, ?_⟩
    have hget : (source.take i)[others.length]? = some lineFeed := by simp [hsplit]
    rw [List.getElem?_take] at hget
    split at hget
    · exact hget
    · cases hget

theorem not_mem_slice_lineStart (source : Bytes) (i : Nat) :
    lineFeed ∉ source.slice (source.lineStart i) i := by
  obtain ⟨before, line, hsplit, hstart, hline, -⟩ := exists_lineStart source i
  rw [slice, hsplit, hstart, List.drop_left]
  exact hline

/-- An offset starts its line if there are only blanks between it and any place on the line. -/
theorem startsLine_iff : source.startsLine i = true ↔
    ∀ j, lineFeed ∉ source.slice j i → ∀ b ∈ source.slice j i, isSpaceOrTab b = true := by
  refine ⟨fun h j hj b hb => ?_, fun h => ?_⟩
  · have hle : source.lineStart i ≤ j := by
      -- Else the line feed before the line would lie in between.
      by_contra hlt
      rcases atLineStart_lineStart source i with hzero | ⟨k, hk, hget⟩
      · omega
      · have := source.lineStart_le i
        exact hj (mem_slice.2 ⟨k, by omega, by omega, hget⟩)
    exact List.all_eq_true.1 h b (slice_subset hle (Nat.le_refl i) hb)
  · exact List.all_eq_true.2 (h _ (not_mem_slice_lineStart source i))

end Deadwood.Bytes
