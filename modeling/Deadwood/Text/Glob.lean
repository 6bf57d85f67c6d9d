/-!
Globs. A star stands for any characters, slashes among them, a question mark for one character and
brackets for one out of a set, or not out of it after an exclamation mark.
-/
namespace Deadwood.Glob

/-- What stands in a set. -/
inductive Member
  | char (c : Char)
  | range (first last : Char)
  deriving DecidableEq, Repr

def Member.isReversed : Member → Bool
  | .char _ => false
  | .range a b => decide (b < a)

def Member.accepts (c : Char) : Member → Bool
  | .char d => c == d
  | .range a b => decide (a ≤ c) && decide (c ≤ b)

theorem Member.accepts_of_isReversed {m : Member} (h : m.isReversed) (c : Char) :
    m.accepts c = false := by
  cases m with
  | char d => cases h
  | range a b =>
    have hba : b < a := of_decide_eq_true h
    by_cases ha : a ≤ c
    · have hb : ¬ c ≤ b := fun hcb => Char.not_le.2 hba (Char.le_trans ha hcb)
      simp [accepts, hb]
    · simp [accepts, ha]

inductive Atom
  | many
  | any
  | char (c : Char)
  | set (negated : Bool) (members : List Member)
  deriving DecidableEq, Repr

/-- Members of a set: a hyphen between two characters makes a range, unless the left one ended a
range. -/
def members : List Char → List Member
  | a :: '-' :: b :: rest => .range a b :: members rest
  | a :: rest => .char a :: members rest
  | [] => []

/-- Reversed ranges hold nothing and are struck out. A mark that only they stood before is then in
front and negates the set; what a hyphen joined to it stands for itself, the hyphen too. -/
def setOf : List Char → Atom
  | '!' :: rest => .set true (members rest)
  | cs =>
    match (members cs).filter (! ·.isReversed) with
    | .char '!' :: rest => .set true rest
    | .range '!' b :: rest => .set true (.char '-' :: .char b :: rest)
    | rest => .set false rest

/-- Characters that stand in a set even if one is a closing bracket. -/
def setHead : List Char → List Char
  | '!' :: ']' :: _ => ['!', ']']
  | '!' :: _ => ['!']
  | ']' :: _ => [']']
  | _ => []

/-- The inside of a set and what follows it, if the set is closed. -/
def set? (cs : List Char) : Option (List Char × List Char) :=
  let head := setHead cs
  let rest := cs.drop head.length
  let body := rest.takeWhile (· ≠ ']')
  match rest.drop body.length with
  | [] => none
  | _ :: rest => some (head ++ body, rest)

/-- Atoms of a pattern, after `skip` characters that belong to the set before. -/
def atoms (skip : Nat) : List Char → List Atom
  | [] => []
  | c :: cs =>
    match skip with
    | k + 1 => atoms k cs
    | 0 =>
      match c with
      | '*' => .many :: atoms 0 cs
      | '?' => .any :: atoms 0 cs
      | '[' =>
        match set? cs with
        | some (body, _) => setOf body :: atoms (body.length + 1) cs
        | none => .char c :: atoms 0 cs
      | c => .char c :: atoms 0 cs

def Atom.accepts (c : Char) : Atom → Bool
  | .many => false
  | .any => true
  | .char d => c == d
  | .set negated ms => (ms.any (Member.accepts c)) != negated

def anyTail (p : List Char → Bool) : List Char → Bool
  | [] => p []
  | c :: cs => p (c :: cs) || anyTail p cs

theorem anyTail_iff (p : List Char → Bool) (cs : List Char) :
    anyTail p cs ↔ ∃ a b, cs = a ++ b ∧ p b := by
  induction cs with
  | nil => simp [anyTail, and_assoc]
  | cons c cs ih =>
    simp only [anyTail, Bool.or_eq_true, ih]
    constructor
    · rintro (h | ⟨a, b, rfl, h⟩)
      · exact ⟨[], _, rfl, h⟩
      · exact ⟨c :: a, b, rfl, h⟩
    · rintro ⟨a, b, hab, h⟩
      cases a with
      | nil => exact .inl (by simpa using hab ▸ h)
      | cons d a => cases hab; exact .inr ⟨a, b, rfl, h⟩

def matchAtoms : List Atom → List Char → Bool
  | [], cs => cs.isEmpty
  | .many :: rest, cs => anyTail (matchAtoms rest) cs
  | a :: rest, cs =>
    match cs with
    | [] => false
    | c :: cs => a.accepts c && matchAtoms rest cs

def accepts (pattern text : String) : Bool := matchAtoms (atoms 0 pattern.toList) text.toList

def isWild (pattern : String) : Bool := pattern.toList.any fun c => c = '*' || c = '?' || c = '['

end Deadwood.Glob
