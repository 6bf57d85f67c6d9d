import Deadwood.Bytes
import Deadwood.Text.Printable

/-!
Text quoted for a message. Single quotes stand around it unless it holds one and no double quote;
the quote in use, the backslash and characters without a shape are escaped.
-/
namespace Deadwood.Text

def quoteFor (cs : List Char) : Char :=
  if '\x27' ∈ cs ∧ '"' ∉ cs then '"' else '\x27'

def hexDigits (width n : Nat) : List Char :=
  (List.range width).reverse.map fun i => Bytes.hexDigit (n / Nat.pow 16 i % 16)

theorem length_hexDigits (width n : Nat) : (hexDigits width n).length = width := by
  simp [hexDigits]

/-- Two, four or eight hexadecimal digits, the fewest that hold the code point. -/
def codeEscape (n : Nat) : List Char :=
  if n < 0x100 then '\\' :: 'x' :: hexDigits 2 n
  else if n < 0x10000 then '\\' :: 'u' :: hexDigits 4 n
  else '\\' :: 'U' :: hexDigits 8 n

def quotedChar (quote c : Char) : List Char :=
  if c = quote ∨ c = '\\' then ['\\', c]
  else if c = '\n' then ['\\', 'n']
  else if c = '\r' then ['\\', 'r']
  else if c = '\t' then ['\\', 't']
  else if isPrintable c then [c]
  else codeEscape c.toNat

def quoted (text : String) : String :=
  let cs := text.toList
  let q := quoteFor cs
  String.ofList (q :: cs.flatMap (quotedChar q) ++ [q])

end Deadwood.Text
