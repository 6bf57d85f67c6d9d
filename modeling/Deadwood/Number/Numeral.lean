import Deadwood.Number.Digits
import Deadwood.Number.Binary64
import Deadwood.Text.Blank

/-!
Numerals as they may be written in a setting: blanks around them, digits of any script, single
underscores between digits, and the words for infinity and no number.
-/
namespace Deadwood.Number

/-- A character as the reader sees it: other scripts' digits and blanks become plain ones. -/
def plain (c : Char) : Char :=
  if c.toNat < 127 then c
  else if Text.isBlank c then ' '
  else match digitValue? c with
    | some d => Char.ofNat (48 + d)
    | none => '?'

def isPlainBlank (c : Char) : Bool := c == ' ' || (9 ≤ c.toNat && c.toNat ≤ 13)

def plainText (text : String) : List Char :=
  Text.dropEndWhile isPlainBlank ((text.toList.map plain).dropWhile isPlainBlank)

def sign : List Char → Bool × List Char
  | '+' :: cs => (false, cs)
  | '-' :: cs => (true, cs)
  | cs => (false, cs)

/-- Drops underscores, each of which must stand between two digits. -/
def dropUnderscores (before : Option Nat) : List Char → Option (List Char)
  | [] => some []
  | '_' :: cs =>
    if before.isSome ∧ (cs.head?.bind asciiDigit).isSome then dropUnderscores none cs else none
  | c :: cs => (dropUnderscores (asciiDigit c) cs).map (c :: ·)

def digits : List Char → Option (List Nat)
  | [] => none
  | cs => cs.mapM asciiDigit

def readInt? (text : String) : Option Int := do
  let (negative, cs) := sign (plainText text)
  let ds ← digits (← dropUnderscores none cs)
  if ds.length > maxDigits then none
  else if negative then some (-(ofDigits ds : Int)) else some (ofDigits ds)

def spanDigits (cs : List Char) : List Nat × List Char :=
  ((cs.takeWhile (asciiDigit · |>.isSome)).filterMap asciiDigit,
    cs.dropWhile (asciiDigit · |>.isSome))

/-- The exponent after a mantissa, zero if there is none. -/
def exponent? : List Char → Option Int
  | [] => some 0
  | c :: cs =>
    if c = 'e' ∨ c = 'E' then do
      let (negative, ds) := sign cs
      let n ← digits ds
      return if negative then -(ofDigits n : Int) else ofDigits n
    else none

def decimal? (negative : Bool) (cs : List Char) : Option Binary64 := do
  let (whole, rest) := spanDigits cs
  let (part, rest) := match rest with
    | '.' :: rest => spanDigits rest
    | rest => ([], rest)
  if whole ++ part = [] then none
  else return Binary64.ofDecimal negative (ofDigits (whole ++ part)) ((← exponent? rest) - part.length)

/-- A numeral without blanks and underscores. -/
def double? (cs : List Char) : Option Binary64 :=
  let (negative, cs) := sign cs
  match Text.lowerAscii (String.ofList cs) with
  | "inf" | "infinity" => some (.infinite negative)
  | "nan" => some (.nan negative)
  | _ => decimal? negative cs

def readDouble? (text : String) : Option Binary64 := do
  double? (← dropUnderscores none (plainText text))

end Deadwood.Number
