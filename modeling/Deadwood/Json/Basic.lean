import Deadwood.Keyed
import Deadwood.Number.Decimal
import Deadwood.Text.Blank
import Deadwood.Text.Quoted

/-!
JSON values. An object keeps its fields in order and a number is a whole number or a double, which
may be infinite or no number. `compact` writes without any space, `pretty` with an indent of two.
-/
namespace Deadwood

inductive Json
  | null
  | bool (b : Bool)
  | int (n : Int)
  | double (x : Binary64)
  | text (s : String)
  | list (items : List Json)
  | object (fields : List (String × Json))
  deriving Repr, Inhabited

namespace Json

def nat (n : Nat) : Json := .int n

def texts (l : List String) : Json := .list (l.map .text)

def field? : Json → String → Option Json
  | .object fields, name => (fields.find? (·.1 == name)).map (·.2)
  | _, _ => none

def codeUnit (n : Nat) : List Char := '\\' :: 'u' :: Text.hexDigits 4 n

/-- Four digits for a code point of the first plane, a pair of surrogates for any other. -/
def codeUnits (n : Nat) : List Char :=
  if n < 0x10000 then codeUnit n
  else codeUnit (0xD800 + (n - 0x10000) / 0x400) ++ codeUnit (0xDC00 + (n - 0x10000) % 0x400)

def escapeChar (asciiOnly : Bool) (c : Char) : List Char :=
  if c = '"' ∨ c = '\\' then ['\\', c]
  else if c = '\n' then ['\\', 'n']
  else if c = '\r' then ['\\', 'r']
  else if c = '\t' then ['\\', 't']
  else if c = '\x08' then ['\\', 'b']
  else if c = '\x0c' then ['\\', 'f']
  else if c.toNat < 32 ∨ (asciiOnly ∧ 126 < c.toNat) then codeUnits c.toNat
  else [c]

def quote (asciiOnly : Bool) (s : String) : List Char :=
  '"' :: s.toList.flatMap (escapeChar asciiOnly) ++ ['"']

/-- Digits around a point that stands after so many of them. -/
def positional (point : Int) (digits : List Char) : List Char :=
  if point ≤ 0 then '0' :: '.' :: List.replicate (-point).toNat '0' ++ digits
  else if (digits.length : Int) ≤ point then
    digits ++ List.replicate (point.toNat - digits.length) '0' ++ ['.', '0']
  else digits.take point.toNat ++ '.' :: digits.drop point.toNat

/-- One digit, the others behind a point, and the power of ten in two digits or more. -/
def scientific (exponent : Int) (digits : List Char) : List Char :=
  let rest := digits.drop 1
  let power := (toString exponent.natAbs).toList
  digits.take 1 ++ (if rest.isEmpty then [] else '.' :: rest) ++
    'e' :: (if exponent < 0 then '-' else '+') :: List.replicate (2 - power.length) '0' ++ power

/-- A decimal from `0.0001` up to 16 digits before the point is written with its point in place. -/
def decimalChars (d : Decimal) : List Char :=
  let digits := (toString d.digits).toList
  let point : Int := digits.length + d.scale
  let digits := Text.dropEndWhile (· = '0') digits
  if -4 < point ∧ point ≤ 16 then positional point digits else scientific (point - 1) digits

def signed (negative : Bool) (cs : List Char) : List Char := if negative then '-' :: cs else cs

def doubleChars : Binary64 → List Char
  | .finite s m e =>
    signed s (if m = 0 then ['0', '.', '0'] else decimalChars (.shortest m e))
  | .infinite s => signed s "Infinity".toList
  | .nan _ => "NaN".toList

def commaSeparated : List (List Char) → List Char := List.intercalate [',']

mutual
def compactChars : Json → List Char
  | .null => "null".toList
  | .bool b => (toString b).toList
  | .int n => (toString n).toList
  | .double x => doubleChars x
  | .text s => quote false s
  | .list items => '[' :: commaSeparated (compactItems items) ++ [']']
  | .object fields => '\x7b' :: commaSeparated (compactFields fields) ++ ['\x7d']

def compactItems : List Json → List (List Char)
  | [] => []
  | j :: rest => compactChars j :: compactItems rest

def compactFields : List (String × Json) → List (List Char)
  | [] => []
  | (k, j) :: rest => (quote false k ++ ':' :: compactChars j) :: compactFields rest
end

def compact (j : Json) : String := String.ofList (compactChars j)

def newLine (depth : Nat) : List Char := '\n' :: List.replicate (2 * depth) ' '

/-- The parts of a list or object, each on a line of its own. -/
def block (depth : Nat) (first last : Char) (parts : List (List Char)) : List Char :=
  if parts.isEmpty then [first, last]
  else first :: commaSeparated (parts.map (newLine (depth + 1) ++ ·)) ++ newLine depth ++ [last]

mutual
def prettyChars (asciiOnly : Bool) (depth : Nat) : Json → List Char
  | .null => "null".toList
  | .bool b => (toString b).toList
  | .int n => (toString n).toList
  | .double x => doubleChars x
  | .text s => quote asciiOnly s
  | .list items => block depth '[' ']' (prettyItems asciiOnly (depth + 1) items)
  | .object fields => block depth '\x7b' '\x7d' (prettyFields asciiOnly (depth + 1) fields)

def prettyItems (asciiOnly : Bool) (depth : Nat) : List Json → List (List Char)
  | [] => []
  | j :: rest => prettyChars asciiOnly depth j :: prettyItems asciiOnly depth rest

def prettyFields (asciiOnly : Bool) (depth : Nat) : List (String × Json) → List (List Char)
  | [] => []
  | (k, j) :: rest =>
    (quote asciiOnly k ++ ':' :: ' ' :: prettyChars asciiOnly depth j) ::
      prettyFields asciiOnly depth rest
end

def pretty (asciiOnly : Bool) (j : Json) : String := String.ofList (prettyChars asciiOnly 0 j)

end Json

end Deadwood
