/-!
White space and line ends in the wide sense of Unicode, and the trimming, splitting and shortening
of text that rests on them.
-/
namespace Deadwood.Text

def isBlank (c : Char) : Bool :=
  let n := c.toNat
  (9 ≤ n && n ≤ 13) || (28 ≤ n && n ≤ 32) || n == 0x85 || n == 0xA0 || n == 0x1680 ||
    (0x2000 ≤ n && n ≤ 0x200A) || n == 0x2028 || n == 0x2029 || n == 0x202F || n == 0x205F ||
    n == 0x3000

theorem isBlank_of_isWhitespace (c : Char) (h : c.isWhitespace) : isBlank c := by
  simp only [Char.isWhitespace, Bool.or_eq_true, decide_eq_true_eq] at h
  rcases h with ((rfl | rfl) | rfl) | rfl <;> decide

/-- The line ends: feeds, returns and separators of lines, paragraphs and records. -/
def endsLine (c : Char) : Bool :=
  let n := c.toNat
  (10 ≤ n && n ≤ 13) || (28 ≤ n && n ≤ 30) || n == 0x85 || n == 0x2028 || n == 0x2029

def dropEndWhile (p : Char → Bool) (cs : List Char) : List Char := (cs.reverse.dropWhile p).reverse

def trim (cs : List Char) : List Char := dropEndWhile isBlank (cs.dropWhile isBlank)

def trimmed (text : String) : String := String.ofList (trim text.toList)

/-- Words with the blanks after them. -/
def words (cs : List Char) : List (List Char) := cs.splitBy fun a b => ! isBlank a || isBlank b

/-- The text up to its first line end. -/
def firstLine (cs : List Char) : List Char := cs.takeWhile (! endsLine ·)

theorem firstLine_no_end (cs : List Char) : (firstLine cs).all (! endsLine ·) := by
  simp [firstLine]

/-- At most `n` characters, with dots where some are left out. -/
def shorten (n : Nat) (cs : List Char) : List Char :=
  if cs.length > n then cs.take n ++ ['.', '.', '.'] else cs

theorem length_shorten_le (n : Nat) (cs : List Char) : (shorten n cs).length ≤ n + 3 := by
  unfold shorten
  split
  · have hle := List.length_take_le n cs
    simp only [List.length_append, List.length_cons, List.length_nil]
    omega
  · omega

def lowerAscii (text : String) : String := String.ofList (text.toList.map Char.toLower)

/-- Every line end of a text file read as a line feed: a return, with or without a feed. -/
def unifyLineEnds : List Char → List Char
  | [] => []
  | '\r' :: '\n' :: rest => '\n' :: unifyLineEnds rest
  | '\r' :: rest => '\n' :: unifyLineEnds rest
  | c :: rest => c :: unifyLineEnds rest

theorem unifyLineEnds_of_not_mem {cs : List Char} (h : '\r' ∉ cs) : unifyLineEnds cs = cs := by
  induction cs with
  | nil => rfl
  | cons c rest ih =>
    rw [List.mem_cons, not_or] at h
    rw [unifyLineEnds, ih h.2]
    all_goals simp [Ne.symm h.1]

end Deadwood.Text
