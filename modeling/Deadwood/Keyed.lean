/-!
Lists of pairs with one pair a key, in the order the keys were first placed. Looking up, replacing
and placing say what they do to the list of keys; grouping collects values under their keys.
-/
namespace Deadwood

abbrev Keyed (κ α : Type) := List (κ × α)

namespace Keyed

variable {κ α : Type} [DecidableEq κ]

def keys (l : Keyed κ α) : List κ := l.map (·.1)

def get? (l : Keyed κ α) (k : κ) : Option α := (l.find? (·.1 = k)).map (·.2)

def erase (l : Keyed κ α) (k : κ) : Keyed κ α := l.filter (·.1 ≠ k)

/-- Changes the value at a key in its place, or places `start` changed at the end. -/
def modify (k : κ) (start : α) (change : α → α) : Keyed κ α → Keyed κ α
  | [] => [(k, change start)]
  | (k', a) :: rest => if k' = k then (k', change a) :: rest else (k', a) :: modify k start change rest

def set (l : Keyed κ α) (k : κ) (a : α) : Keyed κ α := l.modify k a fun _ => a

/-- Places the pair at the end, wherever the key stood before. -/
def setLast (l : Keyed κ α) (k : κ) (a : α) : Keyed κ α := l.erase k ++ [(k, a)]

def setDefault (l : Keyed κ α) (k : κ) (a : α) : Keyed κ α := l.modify k a id

def group {β : Type} (key : β → κ) (bs : List β) : Keyed κ (List β) :=
  bs.foldl (fun l b => l.modify (key b) [] (· ++ [b])) []

theorem keys_modify (l : Keyed κ α) (k : κ) (start : α) (change : α → α) :
    (l.modify k start change).keys = if k ∈ l.keys then l.keys else l.keys ++ [k] := by
  induction l with
  | nil => simp [modify, keys]
  | cons p rest ih =>
    obtain ⟨k', a⟩ := p
    by_cases h : k' = k
    · simp [modify, keys, h]
    · have h' : k ≠ k' := fun e => h e.symm
      simp only [keys, modify, h, if_false, List.map_cons, List.mem_cons, h', false_or] at ih ⊢
      rw [ih]
      by_cases hk : k ∈ rest.map (·.1) <;> simp [hk]

theorem length_modify_le (l : Keyed κ α) (k : κ) (start : α) (change : α → α) :
    (l.modify k start change).length ≤ l.length + 1 := by
  induction l with
  | nil => simp [modify]
  | cons p rest ih =>
    unfold modify
    split
    · simp
    · simpa using ih

theorem keys_setLast (l : Keyed κ α) (k : κ) (a : α) :
    (l.setLast k a).keys = l.keys.filter (· ≠ k) ++ [k] := by
  simp [setLast, erase, keys, List.filter_map, Function.comp_def]

end Keyed

end Deadwood
