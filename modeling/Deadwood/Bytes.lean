/-!
Byte strings, the slices cut from them and the lines they fall into. Offsets count bytes, rows and
columns start at zero, and a line ends with a line feed.
-/
namespace Deadwood

abbrev Bytes := List UInt8

namespace Bytes

def lineFeed : UInt8 := 10
def carriageReturn : UInt8 := 13
def semicolon : UInt8 := 59

def isSpaceOrTab (b : UInt8) : Bool := b == 32 || b == 9

def slice (source : Bytes) (start stop : Nat) : Bytes := (source.take stop).drop start

theorem length_slice (source : Bytes) (start stop : Nat) :
    (source.slice start stop).length = min stop source.length - start := by
  simp [slice]

def row (source : Bytes) (offset : Nat) : Nat := (source.take offset).count lineFeed

def column (source : Bytes) (offset : Nat) : Nat :=
  ((source.take offset).reverse.takeWhile (· != lineFeed)).length

def lineStart (source : Bytes) (offset : Nat) : Nat :=
  min offset source.length - source.column offset

theorem lineStart_le (source : Bytes) (offset : Nat) : source.lineStart offset ≤ offset := by
  unfold lineStart; omega

/-- Only blanks stand before the offset on its line. -/
def startsLine (source : Bytes) (offset : Nat) : Bool :=
  (source.slice (source.lineStart offset) offset).all isSpaceOrTab

def hexDigit (n : Nat) : Char := "0123456789abcdef".toList.getD n '0'

def hexByte (b : UInt8) : List Char := [hexDigit (b.toNat / 16), hexDigit (b.toNat % 16)]

def toHex (bytes : Bytes) : String := String.ofList (bytes.flatMap hexByte)

def hexValue? (c : Char) : Option Nat :=
  if '0' ≤ c ∧ c ≤ '9' then some (c.toNat - 48)
  else if 'a' ≤ c ∧ c ≤ 'f' then some (c.toNat - 87)
  else if 'A' ≤ c ∧ c ≤ 'F' then some (c.toNat - 55)
  else none

def ofHexDigits? : List Char → Option Bytes
  | [] => some []
  | high :: low :: rest => do
    let h ← hexValue? high
    let l ← hexValue? low
    return UInt8.ofNat (16 * h + l) :: (← ofHexDigits? rest)
  | [_] => none

def ofHex? (text : String) : Option Bytes := ofHexDigits? text.toList

end Bytes

end Deadwood
