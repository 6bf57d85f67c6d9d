import Deadwood.Number.Numeral

/-!
Numbers as options take them, in plain digits only. A whole number may have blanks around it, a plus
sign, zeros in front, underscores between its digits, and a point with nothing but zeros behind it.
-/
namespace Deadwood.OptionValue

/-- White space, which the separators of records and their parts are not here. -/
def isSpace (c : Char) : Bool := Text.isBlank c && ! (28 ≤ c.toNat && c.toNat ≤ 31)

def trim (cs : List Char) : List Char := Text.dropEndWhile isSpace (cs.dropWhile isSpace)

def withoutPlus : List Char → Option (List Char)
  | '+' :: '-' :: _ => none
  | '+' :: cs => some cs
  | cs => some cs

/-- What follows zeros, and underscores among them, of which `last` was the last. It stays before a
point and where nothing follows. -/
def afterZeros (last : Char) : List Char → Option (List Char)
  | [] => some [last]
  | c :: cs =>
    if c = '0' ∨ c = '_' then afterZeros c cs
    else if c = '.' then some (last :: c :: cs)
    else if (Number.asciiDigit c).isSome then some (c :: cs)
    else none

def withoutZeros : List Char → Option (List Char)
  | [] => none
  | '0' :: cs => afterZeros '0' cs
  | c :: cs => if c = '-' ∨ (Number.asciiDigit c).isSome then some (c :: cs) else none

/-- Drops a point that has zeros behind it and nothing else. -/
def withoutPlaces (cs : List Char) : List Char :=
  let whole := cs.takeWhile (· ≠ '.')
  match cs.drop whole.length with
  | '.' :: '0' :: rest => if rest.all (· = '0') then whole else cs
  | _ => cs

/-- Drops underscores, unless one stands first, last or beside another. -/
def joined? (cs : List Char) : Option (List Char) :=
  if cs.head? = some '_' ∨ cs.getLast? = some '_' ∨ ('_', '_') ∈ cs.zip cs.tail then none
  else some (cs.filter (· ≠ '_'))

/-- Digits that do not start with a zero, or a zero alone. -/
def whole? : List Char → Option Nat
  | ['0'] => some 0
  | '0' :: _ => none
  | cs => (Number.digits cs).map Number.ofDigits

def signed? : List Char → Option Int
  | '-' :: cs => (whole? cs).map fun n => -(n : Int)
  | cs => (whole? cs).map fun n => (n : Int)

def int? (text : String) : Option Int := do
  let cs ← withoutZeros (← withoutPlus (trim text.toList))
  let cs ← joined? (withoutPlaces cs)
  if Number.maxDigits < cs.length then none else signed? cs

/-- A double with blanks around it or with underscores in it, not with both. -/
def double? (text : String) : Option Binary64 :=
  match Number.double? (trim text.toList) with
  | some x => some x
  | none => (joined? text.toList).bind Number.double?

end Deadwood.OptionValue
