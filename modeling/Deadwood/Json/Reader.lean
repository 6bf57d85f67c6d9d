import Deadwood.Json.Basic
import Deadwood.Number.Digits

/-!
Reading JSON. What cannot be read is refused with its cause and place; the last field of a name
wins and keeps the first one's position.
-/
namespace Deadwood.Json

/-- How deep lists and objects may stand in each other. -/
def maxDepth : Nat := 988

inductive Container
  | list
  | object
  deriving DecidableEq, Repr

def Container.word : Container → String
  | .list => "array"
  | .object => "object"

inductive Refusal
  | value
  | name
  | colon
  | comma
  | extra
  | openText
  | controlCharacter
  | escape
  | codeUnit
  | byteOrderMark
  | length (digits : Nat)
  | depth (container : Container)
  deriving DecidableEq, Repr

def Refusal.reason : Refusal → String
  | .value => "Expecting value"
  | .name => "Expecting property name enclosed in double quotes"
  | .colon => "Expecting ':' delimiter"
  | .comma => "Expecting ',' delimiter"
  | .extra => "Extra data"
  | .openText => "Unterminated string starting at"
  | .controlCharacter => "Invalid control character at"
  | .escape => "Invalid \\escape"
  | .codeUnit => "Invalid \\uXXXX escape"
  | .byteOrderMark => "Unexpected UTF-8 BOM (decode using utf-8-sig)"
  | .length n =>
    s!"Exceeds the limit ({Number.maxDigits} digits) for integer string conversion: " ++
      s!"value has {n} digits; use sys.set_int_max_str_digits() to increase the limit"
  | .depth c =>
    s!"maximum recursion depth exceeded while decoding a JSON {c.word} from a unicode string"

def Refusal.isDepth : Refusal → Bool
  | .depth _ => true
  | _ => false

/-- Whether a refusal tells its place; what is too much is refused without. -/
def Refusal.isPlaced : Refusal → Bool
  | .length _ => false
  | r => ! r.isDepth

def Refusal.className : Refusal → String
  | .length _ => "ValueError"
  | .depth _ => "RecursionError"
  | _ => "JSONDecodeError"

/-- A refusal where so many characters are left. -/
structure Stop where
  refusal : Refusal
  left : Nat
  deriving DecidableEq, Repr

structure ReadError where
  refusal : Refusal
  line : Nat
  column : Nat
  offset : Nat
  deriving DecidableEq, Repr

def ReadError.message (e : ReadError) : String :=
  if e.refusal.isPlaced then
    s!"{e.refusal.reason}: line {e.line} column {e.column} (char {e.offset})"
  else e.refusal.reason

def Stop.locate (cs : List Char) (s : Stop) : ReadError :=
  let before := cs.take (cs.length - s.left)
  { refusal := s.refusal
    line := before.count '\n' + 1
    column := (before.reverse.takeWhile (· ≠ '\n')).length + 1
    offset := before.length }

def isSpace (c : Char) : Bool := c == ' ' || c == '\t' || c == '\n' || c == '\r'

def skipSpace (cs : List Char) : List Char := cs.dropWhile isSpace

def simpleEscape? : Char → Option Char
  | '"' => some '"'
  | '\\' => some '\\'
  | '/' => some '/'
  | 'b' => some '\x08'
  | 'f' => some '\x0c'
  | 'n' => some '\n'
  | 'r' => some '\r'
  | 't' => some '\t'
  | _ => none

def unit? : List Char → Option (Nat × List Char)
  | a :: b :: c :: d :: rest => do
    let n := [← Bytes.hexValue? a, ← Bytes.hexValue? b, ← Bytes.hexValue? c, ← Bytes.hexValue? d]
    return (n.foldl (fun n d => 16 * n + d) 0, rest)
  | _ => none

/-- The second half of a surrogate pair, if one follows and is not the last of the text. -/
def lowHalf? : List Char → Option (Nat × List Char)
  | '\\' :: 'u' :: cs =>
    (unit? cs).filter fun (n, rest) => 0xDC00 ≤ n && n < 0xE000 && ! rest.isEmpty
  | _ => none

/-- An escaped code point; half a pair alone has none and reads as a replacement character. -/
def codePoint? (cs : List Char) : Option (Char × List Char) :=
  match unit? cs with
  | none => none
  | some (n, rest) =>
    if 0xD800 ≤ n ∧ n < 0xDC00 then
      match lowHalf? rest with
      | some (m, rest) => some (Char.ofNat (0x10000 + 0x400 * (n - 0xD800) + (m - 0xDC00)), rest)
      | none => some (Char.ofNat 0xFFFD, rest)
    else if 0xDC00 ≤ n ∧ n < 0xE000 then some (Char.ofNat 0xFFFD, rest)
    else some (Char.ofNat n, rest)

/-- The text after an opening quote, which stood where `start` characters were left. -/
def textChars (start : Nat) : Nat → List Char → List Char → Except Stop (String × List Char)
  | 0, _, _ => .error ⟨.openText, start⟩
  | _, _, [] => .error ⟨.openText, start⟩
  | _ + 1, acc, '"' :: cs => .ok (String.ofList acc.reverse, cs)
  | _ + 1, _, ['\\'] => .error ⟨.openText, start⟩
  | fuel + 1, acc, '\\' :: 'u' :: cs =>
    if cs.length ≤ 4 then .error ⟨.codeUnit, cs.length + 1⟩
    else match codePoint? cs with
      | some (c, rest) => textChars start fuel (c :: acc) rest
      | none => .error ⟨.codeUnit, cs.length + 1⟩
  | fuel + 1, acc, '\\' :: e :: cs =>
    match simpleEscape? e with
    | some c => textChars start fuel (c :: acc) cs
    | none => .error ⟨.escape, cs.length + 2⟩
  | fuel + 1, acc, c :: cs =>
    if c.toNat < 32 then .error ⟨.controlCharacter, cs.length + 1⟩
    else textChars start fuel (c :: acc) cs

def isDigit (c : Char) : Bool := (Number.asciiDigit c).isSome

def spanDigits (cs : List Char) : List Nat × List Char :=
  (cs.takeWhile isDigit |>.filterMap Number.asciiDigit, cs.dropWhile isDigit)

/-- The whole part: a zero alone, or digits that do not start with one. -/
def whole? : List Char → Option (List Nat × List Char)
  | '0' :: cs => some ([0], cs)
  | cs => match spanDigits cs with
    | ([], _) => none
    | r => some r

def places : List Char → List Nat × List Char
  | '.' :: cs => match spanDigits cs with
    | ([], _) => ([], '.' :: cs)
    | r => r
  | cs => ([], cs)

def sign : List Char → Bool × List Char
  | '-' :: cs => (true, cs)
  | '+' :: cs => (false, cs)
  | cs => (false, cs)

def exponentMark? : List Char → Option (Int × List Char)
  | c :: cs =>
    if c = 'e' ∨ c = 'E' then
      let (negative, ds) := sign cs
      match spanDigits ds with
      | ([], _) => none
      | (n, rest) => some (if negative then -(Number.ofDigits n : Int) else Number.ofDigits n, rest)
    else none
  | [] => none

def numberChars (cs : List Char) : Except Stop (Json × List Char) :=
  let (negative, start) := match cs with
    | '-' :: rest => (true, rest)
    | _ => (false, cs)
  match whole? start with
  | none => .error ⟨.value, cs.length⟩
  | some (digits, rest) =>
    let (part, rest) := places rest
    let size := Number.ofDigits (digits ++ part)
    match exponentMark? rest with
    | some (e, rest) => .ok (.double (.ofDecimal negative size (e - part.length)), rest)
    | none =>
      if ! part.isEmpty then .ok (.double (.ofDecimal negative size (-part.length)), rest)
      else if Number.maxDigits < digits.length then .error ⟨.length digits.length, cs.length⟩
      else .ok (.int (if negative then -(size : Int) else size), rest)

def withField (fields : List (String × Json)) (name : String) (j : Json) : List (String × Json) :=
  Keyed.set fields name j

mutual
/-- A value that stands in `depth` others. -/
def valueChars : Nat → Nat → List Char → Except Stop (Json × List Char)
  | 0, _, cs => .error ⟨.value, cs.length⟩
  | fuel + 1, depth, cs =>
    match cs with
    | '"' :: rest => (textChars cs.length cs.length [] rest).map fun (s, rest) => (.text s, rest)
    | '[' :: rest =>
      if maxDepth ≤ depth then .error ⟨.depth .list, cs.length⟩
      else match skipSpace rest with
        | ']' :: rest => .ok (.list [], rest)
        | rest => itemChars fuel (depth + 1) [] rest
    | '\x7b' :: rest =>
      if maxDepth ≤ depth then .error ⟨.depth .object, cs.length⟩
      else match skipSpace rest with
        | '\x7d' :: rest => .ok (.object [], rest)
        | rest => fieldChars fuel (depth + 1) [] rest
    | 'n' :: 'u' :: 'l' :: 'l' :: rest => .ok (.null, rest)
    | 't' :: 'r' :: 'u' :: 'e' :: rest => .ok (.bool true, rest)
    | 'f' :: 'a' :: 'l' :: 's' :: 'e' :: rest => .ok (.bool false, rest)
    | 'N' :: 'a' :: 'N' :: rest => .ok (.double (.nan false), rest)
    | 'I' :: 'n' :: 'f' :: 'i' :: 'n' :: 'i' :: 't' :: 'y' :: rest =>
      .ok (.double (.infinite false), rest)
    | '-' :: 'I' :: 'n' :: 'f' :: 'i' :: 'n' :: 'i' :: 't' :: 'y' :: rest =>
      .ok (.double (.infinite true), rest)
    | cs => numberChars cs

def itemChars : Nat → Nat → List Json → List Char → Except Stop (Json × List Char)
  | 0, _, _, cs => .error ⟨.value, cs.length⟩
  | fuel + 1, depth, acc, cs =>
    match valueChars fuel depth cs with
    | .error e => .error e
    | .ok (j, rest) =>
      match skipSpace rest with
      | ']' :: rest => .ok (.list (j :: acc).reverse, rest)
      | ',' :: rest => itemChars fuel depth (j :: acc) (skipSpace rest)
      | rest => .error ⟨.comma, rest.length⟩

def fieldChars : Nat → Nat → List (String × Json) → List Char → Except Stop (Json × List Char)
  | 0, _, _, cs => .error ⟨.value, cs.length⟩
  | fuel + 1, depth, acc, cs =>
    match cs with
    | '"' :: rest =>
      match textChars cs.length cs.length [] rest with
      | .error e => .error e
      | .ok (name, rest) =>
        match skipSpace rest with
        | ':' :: rest =>
          match valueChars fuel depth (skipSpace rest) with
          | .error e => .error e
          | .ok (j, rest) =>
            match skipSpace rest with
            | '\x7d' :: rest => .ok (.object (withField acc name j), rest)
            | ',' :: rest => fieldChars fuel depth (withField acc name j) (skipSpace rest)
            | rest => .error ⟨.comma, rest.length⟩
        | rest => .error ⟨.colon, rest.length⟩
    | cs => .error ⟨.name, cs.length⟩
end

/-- Reads a whole text; every value and every item takes two rounds at most. -/
def document (cs : List Char) : Except Stop Json :=
  if cs.head? = some '\uFEFF' then .error ⟨.byteOrderMark, cs.length⟩
  else match valueChars (2 * cs.length + 2) 0 (skipSpace cs) with
  | .error e => .error e
  | .ok (j, rest) =>
    let rest := skipSpace rest
    if rest.isEmpty then .ok j else .error ⟨.extra, rest.length⟩

def read (text : String) : Except ReadError Json :=
  (document text.toList).mapError (Stop.locate text.toList)

end Deadwood.Json
