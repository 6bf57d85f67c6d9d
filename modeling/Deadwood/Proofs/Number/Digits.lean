import Deadwood.Json.Reader
import Mathlib.Data.List.Basic

/-!
Whole numbers in decimal digits: what is written reads back, digit by digit.
-/
namespace Deadwood.Number

theorem asciiDigit_digitChar {d : Nat} (h : d < 10) : asciiDigit d.digitChar = some d := by
  have hall : ∀ d < 10, asciiDigit (Nat.digitChar d) = some d := by decide
  exact hall d h

/-- The digits of a number, of which the first is a zero for zero alone. -/
structure Spells (cs : List Char) (n : Nat) : Prop where
  isDigit : ∀ c ∈ cs, (asciiDigit c).isSome = true
  ofDigits_eq : ofDigits (cs.filterMap asciiDigit) = n
  head_ne : n ≠ 0 → ∃ c rest, cs = c :: rest ∧ c ≠ '0'

theorem spells_toDigits (n : Nat) : Spells (Nat.toDigits 10 n) n := by
  induction n using Nat.strongRecOn with
  | ind n ih =>
    by_cases hn : n < 10
    · rw [Nat.toDigits_of_lt_base hn]
      have hdigit := asciiDigit_digitChar hn
      refine ⟨by simp [hdigit], by simp [hdigit, ofDigits], fun hne => ⟨_, [], rfl, fun heq => ?_⟩⟩
      rw [heq] at hdigit
      have hzero : asciiDigit '0' = some 0 := rfl
      rw [hzero, Option.some.injEq] at hdigit
      exact hne hdigit.symm
    · have hlast : n % 10 < 10 := Nat.mod_lt n (by decide)
      have hdigit := asciiDigit_digitChar hlast
      obtain ⟨hdigits, hvalue, hhead⟩ := ih (n / 10) (by omega)
      have hsplit : Nat.toDigits 10 n = Nat.toDigits 10 (n / 10) ++ [(n % 10).digitChar] := by
        rw [Nat.toDigits_of_base_le (by decide) (Nat.not_lt.1 hn)]
      rw [hsplit]
      refine ⟨?_, ?_, fun _ => ?_⟩
      · rw [List.forall_mem_append]
        exact ⟨hdigits, by simp [hdigit]⟩
      · rw [List.filterMap_append, List.filterMap_cons_some hdigit, List.filterMap_nil,
          ofDigits_concat, hvalue]
        omega
      · obtain ⟨c, rest, hrest, hc⟩ := hhead (by omega)
        exact ⟨c, rest ++ [(n % 10).digitChar], by rw [hrest, List.cons_append], hc⟩

end Deadwood.Number
