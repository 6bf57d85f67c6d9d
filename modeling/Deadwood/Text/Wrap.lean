import Deadwood.Text.Blank

/-!
Lines of a width, each character one column. A line breaks before a word that does not fit, and a
word longer than a line is chopped. The main law: no line is wider.
-/
namespace Deadwood.Wrap

/-- Spaces up to the next multiple of eight for each tab. -/
def expandTabs (column : Nat) : List Char → List Char
  | [] => []
  | '\t' :: cs => List.replicate (8 - column % 8) ' ' ++ expandTabs 0 cs
  | c :: cs => c :: expandTabs (column + 1) cs

def chop (width : Nat) (cs : List Char) : List (List Char) :=
  if width = 0 ∨ cs.length ≤ width then [cs]
  else cs.take width :: chop width (cs.drop width)
termination_by cs.length
decreasing_by simp; omega

theorem flatten_chop (width : Nat) (cs : List Char) : (chop width cs).flatten = cs := by
  fun_induction chop width cs with
  | case1 => simp
  | case2 cs _ ih => simp [ih]

/-- Puts a word behind the lines so far, the last of them first. The blanks after it need no room. -/
def place (width : Nat) (lines : List (List Char)) (word : List Char) : List (List Char) :=
  let size := (Text.dropEndWhile Text.isBlank word).length
  match lines with
  | line :: rest =>
    if line.length + size ≤ width then (line ++ word) :: rest
    else if size ≤ width then word :: lines
    else (chop width word).reverse ++ lines
  | [] => if size ≤ width then [word] else (chop width word).reverse

/-- The words of a line, the blanks before the first with it. -/
def wordsOf (line : List Char) : List (List Char) :=
  match Text.words line with
  | blank :: word :: rest =>
    if blank.all Text.isBlank then (blank ++ word) :: rest else blank :: word :: rest
  | ws => ws

def wrap (width : Nat) (line : List Char) : List (List Char) :=
  match (wordsOf (expandTabs 0 line)).foldl (place width) [] with
  | [] => [[]]
  | lines => lines.reverse.map (List.take width)

theorem length_le_of_mem_wrap {width : Nat} {line l : List Char} (h : l ∈ wrap width line) :
    l.length ≤ width := by
  unfold wrap at h
  split at h
  · simp_all
  · obtain ⟨m, -, rfl⟩ := List.mem_map.1 h
    exact List.length_take_le _ _

end Deadwood.Wrap
