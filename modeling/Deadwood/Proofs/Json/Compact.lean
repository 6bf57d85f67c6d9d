import Deadwood.Json.Basic
import Mathlib.Data.Bool.AllAny
import Mathlib.Data.List.Basic

/-!
Compact texts of JSON values without numbers, truth values and objects. Such a text ends where its
value ends, so it determines the value and what follows it (`compactChars_append_inj`).
-/
namespace Deadwood.Json

/-- The characters that a text does not show as themselves. -/
def specialChars : List Char := '"' :: '\\' :: (List.range 32).map Char.ofNat

theorem le_toNat_of_not_special {c : Char} (h : c ∉ specialChars) : 32 ≤ c.toNat := by
  by_contra hlt
  refine h (List.mem_cons_of_mem _ (List.mem_cons_of_mem _ (List.mem_map.2 ?_)))
  exact ⟨c.toNat, List.mem_range.2 (Nat.not_le.1 hlt), Char.ofNat_toNat c⟩

theorem escapeChar_cases (c : Char) :
    (c ∈ specialChars ∧ ∃ tail, escapeChar false c = '\\' :: tail) ∨
      (c ≠ '"' ∧ c ≠ '\\' ∧ escapeChar false c = [c]) := by
  by_cases hspecial : c ∈ specialChars
  · have htails : ∀ d ∈ specialChars, (escapeChar false d).head? = some '\\' :=
      List.all_iff_forall_prop.1 (by decide +kernel)
    exact .inl ⟨hspecial, List.head?_eq_some_iff.1 (htails c hspecial)⟩
  · have hcontrol : ¬ c.toNat < 32 := Nat.not_lt.2 (le_toNat_of_not_special hspecial)
    have hne : ∀ d ∈ specialChars, c ≠ d := fun d hd heq => hspecial (heq ▸ hd)
    refine .inr ⟨hne _ (by decide), hne _ (by decide), ?_⟩
    simp [escapeChar, hcontrol, hne '"' (by decide), hne '\\' (by decide), hne '\n' (by decide),
      hne '\r' (by decide), hne '\t' (by decide), hne '\x08' (by decide), hne '\x0c' (by decide)]

theorem escapeChar_append_inj {c d : Char} {r s : List Char}
    (h : escapeChar false c ++ r = escapeChar false d ++ s) : c = d ∧ r = s := by
  rcases escapeChar_cases c with ⟨hc, tail, htail⟩ | ⟨-, hc, hplain⟩
  · rcases escapeChar_cases d with ⟨hd, -⟩ | ⟨-, hd, hplain'⟩
    · -- No escape begins another.
      have hapart : ∀ a ∈ specialChars, ∀ b ∈ specialChars,
          escapeChar false a <+: escapeChar false b → a = b := by
        simp only [← List.all_iff_forall_prop]
        decide +kernel
      have heq : c = d := by
        rcases List.prefix_or_prefix_of_prefix (List.prefix_append _ r)
          (h ▸ List.prefix_append _ s) with hpre | hpre
        · exact hapart c hc d hd hpre
        · exact (hapart d hd c hc hpre).symm
      subst heq
      exact ⟨rfl, List.append_cancel_left h⟩
    · rw [htail, hplain'] at h
      exact absurd (List.cons.inj h).1.symm hd
  · rcases escapeChar_cases d with ⟨-, tail, htail⟩ | ⟨-, -, hplain'⟩
    · rw [hplain, htail] at h
      exact absurd (List.cons.inj h).1 hc
    · rw [hplain, hplain'] at h
      exact List.cons.inj h

theorem escapeChar_append_ne_quote (c : Char) (r s : List Char) :
    escapeChar false c ++ r ≠ '"' :: s := by
  intro h
  rcases escapeChar_cases c with ⟨-, tail, htail⟩ | ⟨hc, -, hplain⟩
  · rw [htail] at h
    exact absurd (List.cons.inj h).1 (by decide)
  · rw [hplain] at h
    exact hc (List.cons.inj h).1

theorem escaped_append_inj {cs ds r s : List Char}
    (h : cs.flatMap (escapeChar false) ++ '"' :: r = ds.flatMap (escapeChar false) ++ '"' :: s) :
    cs = ds ∧ r = s := by
  induction cs generalizing ds with
  | nil =>
    cases ds with
    | nil => exact ⟨rfl, (List.cons.inj h).2⟩
    | cons d ds =>
      rw [List.flatMap_cons, List.append_assoc] at h
      exact absurd h.symm (escapeChar_append_ne_quote d _ _)
  | cons c cs ih =>
    rw [List.flatMap_cons, List.append_assoc] at h
    cases ds with
    | nil => exact absurd h (escapeChar_append_ne_quote c _ _)
    | cons d ds =>
      rw [List.flatMap_cons, List.append_assoc] at h
      obtain ⟨rfl, hrest⟩ := escapeChar_append_inj h
      obtain ⟨rfl, rfl⟩ := ih hrest
      exact ⟨rfl, rfl⟩

/-- A quoted text ends at its closing quote, whatever follows. -/
theorem quote_append_inj {a b : String} {r s : List Char}
    (h : quote false a ++ r = quote false b ++ s) : a = b ∧ r = s := by
  simp only [quote, List.cons_append, List.append_assoc, List.nil_append, List.cons.injEq,
    true_and] at h
  obtain ⟨hchars, hrest⟩ := escaped_append_inj h
  exact ⟨String.toList_injective hchars, hrest⟩

theorem commaSeparated_cons (a : List Char) (l : List (List Char)) :
    commaSeparated (a :: l) = a ++ l.flatMap (',' :: ·) := by
  induction l generalizing a with
  | nil => simp [commaSeparated, List.intercalate]
  | cons b l ih =>
    have hstep : commaSeparated (a :: b :: l) = a ++ ',' :: commaSeparated (b :: l) := by
      simp [commaSeparated, List.intercalate]
    rw [hstep, ih, List.flatMap_cons, List.cons_append]

mutual
/-- Built from null, texts and lists alone. -/
def isPlain : Json → Bool
  | .null | .text _ => true
  | .list items => arePlain items
  | .bool _ | .int _ | .double _ | .object _ => false

def arePlain : List Json → Bool
  | [] => true
  | j :: rest => isPlain j && arePlain rest
end

theorem arePlain_iff {items : List Json} :
    arePlain items = true ↔ ∀ j ∈ items, isPlain j = true := by
  induction items with
  | nil => simp [arePlain]
  | cons j rest ih => simp [arePlain, ih]

theorem compactChars_append_ne {j : Json} (hj : isPlain j = true) (r s : List Char) :
    compactChars j ++ r ≠ ']' :: s := by
  intro h
  cases j with
  | null => exact absurd (List.cons.inj h).1 (by decide)
  | text a => exact absurd (List.cons.inj h).1 (by decide)
  | list items => exact absurd (List.cons.inj h).1 (by decide)
  | bool | int | double | object => cases hj

mutual
theorem compactChars_append_inj {j k : Json} {r s : List Char} (hj : isPlain j = true)
    (hk : isPlain k = true) (h : compactChars j ++ r = compactChars k ++ s) : j = k ∧ r = s := by
  cases j with
  | null =>
    cases k with
    | null => exact ⟨rfl, List.append_cancel_left h⟩
    | text b => exact absurd (List.cons.inj h).1 (by decide)
    | list items => exact absurd (List.cons.inj h).1 (by decide)
    | bool | int | double | object => cases hk
  | text a =>
    cases k with
    | null => exact absurd (List.cons.inj h).1 (by decide)
    | text b =>
      obtain ⟨rfl, hrest⟩ := quote_append_inj h
      exact ⟨rfl, hrest⟩
    | list items => exact absurd (List.cons.inj h).1 (by decide)
    | bool | int | double | object => cases hk
  | list items =>
    cases k with
    | null => exact absurd (List.cons.inj h).1 (by decide)
    | text b => exact absurd (List.cons.inj h).1 (by decide)
    | list items' =>
      simp only [compactChars, List.cons_append, List.append_assoc, List.nil_append,
        List.cons.injEq, true_and] at h
      obtain ⟨rfl, hrest⟩ := commaSeparated_append_inj hj hk h
      exact ⟨rfl, hrest⟩
    | bool | int | double | object => cases hk
  | bool | int | double | object => cases hj

theorem commaSeparated_append_inj {items items' : List Json} {r s : List Char}
    (hj : arePlain items = true) (hk : arePlain items' = true)
    (h : commaSeparated (compactItems items) ++ ']' :: r =
      commaSeparated (compactItems items') ++ ']' :: s) : items = items' ∧ r = s := by
  cases items with
  | nil =>
    cases items' with
    | nil => exact ⟨rfl, (List.cons.inj h).2⟩
    | cons k rest' =>
      simp only [compactItems, commaSeparated_cons, List.append_assoc] at h
      rw [arePlain, Bool.and_eq_true] at hk
      exact absurd h.symm (compactChars_append_ne hk.1 _ _)
  | cons j rest =>
    rw [compactItems, commaSeparated_cons, List.append_assoc] at h
    rw [arePlain, Bool.and_eq_true] at hj
    cases items' with
    | nil => exact absurd h (compactChars_append_ne hj.1 _ _)
    | cons k rest' =>
      rw [compactItems, commaSeparated_cons, List.append_assoc] at h
      rw [arePlain, Bool.and_eq_true] at hk
      obtain ⟨rfl, hrest⟩ := compactChars_append_inj hj.1 hk.1 h
      obtain ⟨rfl, rfl⟩ := flatMap_append_inj hj.2 hk.2 hrest
      exact ⟨rfl, rfl⟩

/-- The items after the first, each behind its comma. -/
theorem flatMap_append_inj {items items' : List Json} {r s : List Char}
    (hj : arePlain items = true) (hk : arePlain items' = true)
    (h : (compactItems items).flatMap (',' :: ·) ++ ']' :: r =
      (compactItems items').flatMap (',' :: ·) ++ ']' :: s) : items = items' ∧ r = s := by
  cases items with
  | nil =>
    cases items' with
    | nil => exact ⟨rfl, (List.cons.inj h).2⟩
    | cons k rest' => exact absurd (List.cons.inj h).1 (by decide)
  | cons j rest =>
    cases items' with
    | nil => exact absurd (List.cons.inj h).1 (by decide)
    | cons k rest' =>
      simp only [compactItems, List.flatMap_cons, List.cons_append, List.append_assoc,
        List.cons.injEq, true_and] at h
      simp only [arePlain, Bool.and_eq_true] at hj hk
      obtain ⟨rfl, hrest⟩ := compactChars_append_inj hj.1 hk.1 h
      obtain ⟨rfl, rfl⟩ := flatMap_append_inj hj.2 hk.2 hrest
      exact ⟨rfl, rfl⟩
end

theorem eq_of_compact {j k : Json} (hj : isPlain j = true) (hk : isPlain k = true)
    (h : j.compact = k.compact) : j = k := by
  have hchars := congrArg (·.toList ++ []) h
  simp only [compact, String.toList_ofList] at hchars
  exact (compactChars_append_inj hj hk hchars).1

end Deadwood.Json
