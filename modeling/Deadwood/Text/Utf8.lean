import Deadwood.Bytes

/-!
UTF-8. A lead byte asks for a number of tails, the first of them from a range of its own. A fault
covers the longest run of bytes that could still have begun a character, so the strict reading can
say where it stopped and the lossy reading puts one replacement character there.
-/
namespace Deadwood.Utf8

inductive Defect
  | lead
  | tail
  | cutShort
  deriving DecidableEq, Repr

structure Fault where
  defect : Defect
  offset : Nat
  width : Nat
  byte : UInt8
  deriving DecidableEq, Repr

def Defect.reason : Defect → String
  | .lead => "invalid start byte"
  | .tail => "invalid continuation byte"
  | .cutShort => "unexpected end of data"

def Fault.place (f : Fault) : String :=
  if f.width = 1 then s!"byte 0x{String.ofList (Bytes.hexByte f.byte)} in position {f.offset}"
  else s!"bytes in position {f.offset}-{f.offset + f.width - 1}"

def Fault.message (f : Fault) : String :=
  s!"'utf-8' codec can't decode {f.place}: {f.defect.reason}"

structure Lead where
  bits : Nat
  tails : Nat
  low : UInt8
  high : UInt8

/-- Bounds on the first tail keep out overlong forms, surrogates and values past U+10FFFF. -/
def lead? (b : UInt8) : Option Lead :=
  if b < 0x80 then some ⟨b.toNat, 0, 0x80, 0xBF⟩
  else if b < 0xC2 then none
  else if b < 0xE0 then some ⟨b.toNat - 0xC0, 1, 0x80, 0xBF⟩
  else if b < 0xF0 then
    some ⟨b.toNat - 0xE0, 2, if b = 0xE0 then 0xA0 else 0x80, if b = 0xED then 0x9F else 0xBF⟩
  else if b < 0xF5 then
    some ⟨b.toNat - 0xF0, 3, if b = 0xF0 then 0x90 else 0x80, if b = 0xF4 then 0x8F else 0xBF⟩
  else none

/-- The tails at the front of the bytes, at most `n` of them. -/
def tails : Nat → UInt8 → UInt8 → Bytes → Bytes
  | 0, _, _, _ => []
  | _, _, _, [] => []
  | n + 1, low, high, b :: rest =>
    if low ≤ b ∧ b ≤ high then b :: tails n 0x80 0xBF rest else []

theorem length_tails_le (n : Nat) (low high : UInt8) (bytes : Bytes) :
    (tails n low high bytes).length ≤ n := by
  induction n generalizing low high bytes with
  | zero => simp [tails]
  | succ n ih =>
    cases bytes with
    | nil => simp [tails]
    | cons b rest =>
      unfold tails
      split
      · simpa using ih 0x80 0xBF rest
      · simp

inductive Step
  | char (c : Char) (width : Nat)
  | fault (defect : Defect) (width : Nat)
  deriving DecidableEq, Repr

def Step.width : Step → Nat
  | .char _ n => n
  | .fault _ n => n

def scalar (bits : Nat) (tails : Bytes) : Char :=
  Char.ofNat (tails.foldl (fun n b => 64 * n + (b.toNat - 0x80)) bits)

def step (b : UInt8) (rest : Bytes) : Step :=
  match lead? b with
  | none => .fault .lead 1
  | some lead =>
    let found := tails lead.tails lead.low lead.high rest
    if found.length = lead.tails then .char (scalar lead.bits found) (1 + found.length)
    else if found.length = rest.length then .fault .cutShort (1 + found.length)
    else .fault .tail (1 + found.length)

/-- The steps that cover the bytes, each with its offset and first byte, after `skip` bytes of the
step before. -/
def steps (offset skip : Nat) : Bytes → List (Nat × UInt8 × Step)
  | [] => []
  | b :: rest =>
    match skip with
    | k + 1 => steps (offset + 1) k rest
    | 0 =>
      let s := step b rest
      (offset, b, s) :: steps (offset + 1) (s.width - 1) rest

def decodeSteps : List (Nat × UInt8 × Step) → Except Fault (List Char)
  | [] => .ok []
  | (_, _, .char c _) :: rest => (decodeSteps rest).map (c :: ·)
  | (offset, b, .fault defect width) :: _ => .error ⟨defect, offset, width, b⟩

def decode (bytes : Bytes) : Except Fault String :=
  (decodeSteps (steps 0 0 bytes)).map String.ofList

def replacement : Char := Char.ofNat 0xFFFD

def Step.shown : Step → Char
  | .char c _ => c
  | .fault _ _ => replacement

def decodeLossy (bytes : Bytes) : String :=
  String.ofList ((steps 0 0 bytes).map (·.2.2.shown))

def encode (text : String) : Bytes := text.toList.flatMap String.utf8EncodeChar

def isValid (bytes : Bytes) : Bool := (decode bytes).isOk

end Deadwood.Utf8
