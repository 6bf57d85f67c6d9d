/-!
Doubles as exact values: a signed mantissa times a power of two, an infinity, or no number.
Rounding a quotient to the nearest double, ties to the even mantissa, is the one source of finite
values, so arithmetic here is exact arithmetic followed by that rounding.
-/
namespace Deadwood

inductive Binary64
  | finite (negative : Bool) (mantissa : Nat) (exponent : Int)
  | infinite (negative : Bool)
  | nan (negative : Bool)
  deriving DecidableEq, Repr

namespace Binary64

def leastExponent : Int := -1074
def greatestExponent : Int := 971

def zero (negative : Bool) : Binary64 := .finite negative 0 leastExponent

/-- Nearest whole number to a quotient; a half goes to the even neighbour. -/
def roundHalfEven (num den : Nat) : Nat :=
  let q := num / den
  let r := num % den
  if 2 * r < den then q else if den < 2 * r then q + 1 else q + q % 2

theorem roundHalfEven_mul (q den : Nat) (h : 0 < den) : roundHalfEven (q * den) den = q := by
  simp [roundHalfEven, Nat.mul_div_cancel _ h, h]

/-- The fraction `num / den · 2 ^ -e`. -/
def scaled (num den : Nat) (e : Int) : Nat × Nat :=
  if 0 ≤ e then (num, den * Nat.pow 2 e.toNat) else (num * Nat.pow 2 (-e).toNat, den)

/-- The power of two at or below a positive fraction. -/
def floorLog2 (num den : Nat) : Int :=
  let e : Int := num.log2 - den.log2
  let (n, d) := scaled num den e
  if d ≤ n then e else e - 1

def roundQuotient (negative : Bool) (num den : Nat) : Binary64 :=
  if num = 0 ∨ den = 0 then zero negative
  else
    let e := max leastExponent (floorLog2 num den - 52)
    let (n, d) := scaled num den e
    let m := roundHalfEven n d
    let (m, e) := if m = Nat.pow 2 53 then (Nat.pow 2 52, e + 1) else (m, e)
    if greatestExponent < e then .infinite negative else .finite negative m e

/-- A decimal `digits · 10 ^ scale`. Scales far out of range are settled without the power. -/
def ofDecimal (negative : Bool) (digits : Nat) (scale : Int) : Binary64 :=
  let size : Int := (toString digits).length + scale
  if digits = 0 then zero negative
  else if 320 < size then .infinite negative
  else if size < -340 then zero negative
  else if 0 ≤ scale then roundQuotient negative (digits * Nat.pow 10 scale.toNat) 1
  else roundQuotient negative digits (Nat.pow 10 (-scale).toNat)

def ofInt (n : Int) : Binary64 := roundQuotient (decide (n < 0)) n.natAbs 1

/-- Whole part of `±m · 2 ^ e` on the grid of the least exponent. -/
def units (negative : Bool) (mantissa : Nat) (exponent : Int) : Int :=
  let size := mantissa * Nat.pow 2 (exponent - leastExponent).toNat
  if negative then -(size : Int) else size

def lt : Binary64 → Binary64 → Bool
  | .finite s m e, .finite t n f => decide (units s m e < units t n f)
  | .finite _ _ _, .infinite t => ! t
  | .infinite s, .finite _ _ _ => s
  | .infinite s, .infinite t => s && ! t
  | .nan _, _ => false
  | _, .nan _ => false

def le : Binary64 → Binary64 → Bool
  | .finite s m e, .finite t n f => decide (units s m e ≤ units t n f)
  | .infinite s, .infinite t => s || ! t
  | x, y => lt x y

theorem le_of_lt {x y : Binary64} (h : lt x y) : le x y := by
  cases x <;> cases y <;> simp_all [lt, le]
  exact Int.le_of_lt h

def one : Binary64 := roundQuotient false 1 1

/-- `0.3`, the nearest double. -/
def threeTenths : Binary64 := roundQuotient false 3 10

def signBit (negative : Bool) : Nat := if negative then Nat.pow 2 63 else 0

def toBits : Binary64 → Nat
  | .finite s m e =>
    if m < Nat.pow 2 52 then signBit s + m
    else signBit s + (e + 1075).toNat * Nat.pow 2 52 + (m - Nat.pow 2 52)
  | .infinite s => signBit s + 0x7FF * Nat.pow 2 52
  | .nan s => signBit s + 0x7FF * Nat.pow 2 52 + Nat.pow 2 51

/-- The double times a hundred, itself rounded to a double. -/
def hundredfold : Binary64 → Binary64
  | .finite s m e =>
    if 0 ≤ e then roundQuotient s (100 * m * Nat.pow 2 e.toNat) 1
    else roundQuotient s (100 * m) (Nat.pow 2 (-e).toNat)
  | x => x

def wholeText (negative : Bool) (n : Nat) : String := (if negative then "-" else "") ++ toString n

/-- A share as a percentage without places; a half goes to the even neighbour and a zero keeps its
sign. -/
def percent (x : Binary64) : String :=
  match x.hundredfold with
  | .finite s m e =>
    let n := if 0 ≤ e then m * Nat.pow 2 e.toNat else roundHalfEven m (Nat.pow 2 (-e).toNat)
    wholeText s n ++ "%"
  | .infinite s => (if s then "-inf" else "inf") ++ "%"
  | .nan _ => "nan%"

end Binary64

end Deadwood
