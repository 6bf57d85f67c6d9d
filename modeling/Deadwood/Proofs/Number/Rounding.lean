import Deadwood.Number.Binary64
import Mathlib.Algebra.Group.Nat.Defs
import Mathlib.Data.Nat.Log

/-!
Rounded quotients. A quotient of at most one is not rounded past one (`lt_one_roundQuotient`).
-/
namespace Deadwood.Binary64

variable {num den : Nat}

theorem roundHalfEven_le {q : Nat} (h : num ≤ q * den) : roundHalfEven num den ≤ q := by
  have hdiv := Nat.div_add_mod num den
  have hle : num / den ≤ q := Nat.div_le_of_le_mul (by rwa [Nat.mul_comm])
  unfold roundHalfEven
  dsimp only
  rcases Nat.lt_or_eq_of_le hle with hlt | rfl
  · split
    · exact hle
    · split <;> omega
  · -- The quotient is whole, so nothing is left to round.
    rw [Nat.mul_comm] at h
    have hmod : num % den = 0 := by omega
    rw [hmod]
    split
    · exact le_rfl
    · next hden =>
      obtain rfl : den = 0 := by omega
      simp

theorem floorLog2_nonpos (h : num ≤ den) : floorLog2 num den ≤ 0 := by
  have hlog : num.log2 ≤ den.log2 := by
    rw [Nat.log2_eq_log_two, Nat.log2_eq_log_two]
    exact Nat.log_mono_right h
  unfold floorLog2
  dsimp only
  split <;> omega

theorem one_eq : one = .finite false (Nat.pow 2 52) (-52) := by decide

/-- On the grid of the least exponent, `one` is that power of two. -/
theorem units_one : units false (Nat.pow 2 52) (-52) = ((2 ^ (-leastExponent).toNat : Nat) : Int) := by
  decide +kernel

theorem lt_one_finite {m k : Nat} {e : Int} (hm : m ≤ 2 ^ k)
    (hk : k + (e - leastExponent).toNat ≤ (-leastExponent).toNat) :
    lt one (.finite false m e) = false := by
  rw [one_eq, lt, decide_eq_false_iff_not, not_lt, units_one, units]
  have hsize : m * 2 ^ (e - leastExponent).toNat ≤ 2 ^ (-leastExponent).toNat := by
    calc m * 2 ^ (e - leastExponent).toNat
        ≤ 2 ^ k * 2 ^ (e - leastExponent).toNat := Nat.mul_le_mul_right _ hm
      _ = 2 ^ (k + (e - leastExponent).toNat) := (Nat.pow_add 2 _ _).symm
      _ ≤ 2 ^ (-leastExponent).toNat := Nat.pow_le_pow_right (by decide) hk
  exact Int.ofNat_le.2 hsize

theorem lt_one_roundQuotient (h : num ≤ den) : lt one (roundQuotient false num den) = false := by
  unfold roundQuotient
  split
  · exact lt_one_finite (k := 0) (Nat.zero_le _) (by decide)
  · have hfloor := floorLog2_nonpos h
    have hleast : leastExponent = -1074 := rfl
    have hgreatest : greatestExponent = 971 := rfl
    dsimp only
    generalize he : max leastExponent (floorLog2 num den - 52) = e
    have hrange : -1074 ≤ e ∧ e ≤ -52 := by omega
    have hm : roundHalfEven (num * 2 ^ (-e).toNat) den ≤ 2 ^ (-e).toNat :=
      roundHalfEven_le (by rw [Nat.mul_comm]; exact Nat.mul_le_mul_left _ h)
    have hscaled : scaled num den e = (num * 2 ^ (-e).toNat, den) := if_neg (by omega)
    rw [hscaled]
    split
    · next hcarry =>
      -- The mantissa has carried, so a larger power of two is at hand.
      have hpow : 2 ^ 53 ≤ 2 ^ (-e).toNat := le_of_eq_of_le hcarry.symm hm
      have hexp : 53 ≤ (-e).toNat := (Nat.pow_le_pow_iff_right (by decide)).1 hpow
      rw [if_neg (by omega)]
      exact lt_one_finite (k := 52) le_rfl (by omega)
    · rw [if_neg (by omega)]
      exact lt_one_finite hm (by omega)

end Deadwood.Binary64
