import Deadwood.Number.Binary64

/-!
Decimals of doubles. The shortest decimal of a double has the fewest digits that read back to it and
is the nearest of those.
-/
namespace Deadwood

/-- The decimal `digits · 10 ^ scale`. -/
structure Decimal where
  digits : Nat
  scale : Int
  deriving DecidableEq, Repr

namespace Decimal

def toBinary64 (d : Decimal) : Binary64 := .ofDecimal false d.digits d.scale

/-- The fraction `num / den · 10 ^ -e`. -/
def scaled (num den : Nat) (e : Int) : Nat × Nat :=
  if 0 ≤ e then (num, den * Nat.pow 10 e.toNat) else (num * Nat.pow 10 (-e).toNat, den)

/-- The power of ten at or below a positive fraction. -/
def floorLog10 (num den : Nat) : Int :=
  let e : Int := (toString num).length - (toString den).length
  let (n, d) := scaled num den e
  if d ≤ n then e else e - 1

/-- The whole numbers on both sides of a fraction, the nearer one first. -/
def neighbours (num den : Nat) : List Nat :=
  let q := num / den
  if Binary64.roundHalfEven num den = q then [q, q + 1] else [q + 1, q]

/-- A decimal beside the fraction, of `n` digits, that reads back to the double. -/
def ofLength? (x : Binary64) (num den n : Nat) : Option Decimal :=
  let scale := floorLog10 num den + 1 - n
  let (a, b) := scaled num den scale
  ((neighbours a b).map (⟨·, scale⟩)).find? (·.toBinary64 = x)

theorem toBinary64_of_ofLength? {x : Binary64} {num den n : Nat} {d : Decimal}
    (h : ofLength? x num den n = some d) : d.toBinary64 = x := by
  simpa using List.find?_some h

/-- Seventeen digits tell all doubles apart. -/
def maxDigits : Nat := 17

/-- The value itself, every digit of it. -/
def exact (mantissa : Nat) (exponent : Int) : Decimal :=
  if 0 ≤ exponent then ⟨mantissa * Nat.pow 2 exponent.toNat, 0⟩
  else ⟨mantissa * Nat.pow 5 (-exponent).toNat, exponent⟩

def shortest (mantissa : Nat) (exponent : Int) : Decimal :=
  let (num, den) := Binary64.scaled mantissa 1 (-exponent)
  let found := (List.range maxDigits).findSome? fun n =>
    ofLength? (.finite false mantissa exponent) num den (n + 1)
  found.getD (exact mantissa exponent)

end Decimal

end Deadwood
