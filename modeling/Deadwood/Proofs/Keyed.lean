import Deadwood.Keyed
import Mathlib.Data.List.Induction
import Mathlib.Data.List.Nodup

/-!
Lists of pairs with one pair a key: what is found after a pair is placed, replaced or taken away,
and which keys and values a grouping has.
-/
namespace Deadwood.Keyed

variable {κ α β : Type} [DecidableEq κ]

/-! ## Looking up -/

theorem get?_cons (k k' : κ) (a : α) (l : Keyed κ α) :
    get? ((k', a) :: l) k = if k' = k then some a else get? l k := by
  unfold get?
  by_cases h : k' = k
  · simp [h]
  · simp [h]

theorem get?_modify (l : Keyed κ α) (k k' : κ) (start : α) (change : α → α) :
    (l.modify k start change).get? k' =
      if k' = k then some (change ((l.get? k).getD start)) else l.get? k' := by
  induction l with
  | nil =>
    rw [modify, get?_cons]
    simp only [eq_comm]
    rfl
  | cons p rest ih =>
    obtain ⟨j, b⟩ := p
    rw [modify]
    by_cases hj : j = k
    · rw [if_pos hj, get?_cons, get?_cons, get?_cons, if_pos hj, hj]
      by_cases hk : k = k'
      · rw [if_pos hk, if_pos hk.symm, Option.getD_some]
      · rw [if_neg hk, if_neg (Ne.symm hk), if_neg hk]
    · rw [if_neg hj, get?_cons, get?_cons, get?_cons, if_neg hj, ih]
      by_cases hk : j = k'
      · rw [if_pos hk, if_pos hk, if_neg (hk ▸ hj)]
      · rw [if_neg hk, if_neg hk]

theorem get?_set (l : Keyed κ α) (k k' : κ) (a : α) :
    (l.set k a).get? k' = if k' = k then some a else l.get? k' := get?_modify l k k' a _

theorem get?_erase (l : Keyed κ α) (k k' : κ) :
    (l.erase k).get? k' = if k' = k then none else l.get? k' := by
  induction l with
  | nil => simp [erase, get?]
  | cons p rest ih =>
    obtain ⟨j, a⟩ := p
    rw [erase] at ih
    by_cases hj : j = k
    · rw [erase, List.filter_cons_of_neg (by simp [hj]), ih, get?_cons, hj]
      split
      · rfl
      · next hk => rw [if_neg (Ne.symm hk)]
    · rw [erase, List.filter_cons_of_pos (by simp [hj]), get?_cons, get?_cons, ih]
      split
      · next hk => rw [if_neg (hk ▸ hj)]
      · rfl

theorem get?_eq_some_of_mem {l : Keyed κ α} (h : l.keys.Nodup) {k : κ} {a : α} (hmem : (k, a) ∈ l) :
    l.get? k = some a := by
  induction l with
  | nil => cases hmem
  | cons p rest ih =>
    obtain ⟨j, b⟩ := p
    rw [keys, List.map_cons, List.nodup_cons] at h
    rw [get?_cons]
    rcases List.mem_cons.1 hmem with heq | hrest
    · cases heq
      rw [if_pos rfl]
    · rw [if_neg fun hj => h.1 (List.mem_map.2 ⟨_, hrest, hj.symm⟩), ih h.2 hrest]

theorem mem_keys_of_get? {l : Keyed κ α} {k : κ} {a : α} (h : l.get? k = some a) : k ∈ l.keys := by
  obtain ⟨p, hp, rfl⟩ := Option.map_eq_some_iff.1 h
  exact List.mem_map.2 ⟨p, List.mem_of_find?_eq_some hp, by simpa using List.find?_some hp⟩

/-! ## Placing -/

theorem modify_of_not_mem {l : Keyed κ α} {k : κ} (h : k ∉ l.keys) (start : α) (change : α → α) :
    l.modify k start change = l ++ [(k, change start)] := by
  induction l with
  | nil => rfl
  | cons p rest ih =>
    simp only [keys, List.map_cons, List.mem_cons, not_or] at h
    rw [modify, if_neg (Ne.symm h.1), List.cons_append]
    exact congrArg _ (ih h.2)

theorem set_of_not_mem {l : Keyed κ α} {k : κ} (h : k ∉ l.keys) (a : α) :
    l.set k a = l ++ [(k, a)] := modify_of_not_mem h a _

theorem setDefault_of_not_mem {l : Keyed κ α} {k : κ} (h : k ∉ l.keys) (a : α) :
    l.setDefault k a = l ++ [(k, a)] := modify_of_not_mem h a id

theorem setDefault_of_mem {l : Keyed κ α} {k : κ} (h : k ∈ l.keys) (a : α) :
    l.setDefault k a = l := by
  induction l with
  | nil => cases h
  | cons p rest ih =>
    rw [setDefault, modify]
    split
    · rfl
    · next hne =>
      rw [keys, List.map_cons, List.mem_cons] at h
      exact congrArg _ (ih (h.resolve_left (Ne.symm hne)))

/-- Placed under keys that are all distinct, values stand in the order they came in. -/
theorem foldl_set {key : α → κ} {as : List α} (h : (as.map key).Nodup) :
    as.foldl (fun l a => set l (key a) a) [] = as.map fun a => (key a, a) := by
  induction as using List.reverseRecOn with
  | nil => rfl
  | append_singleton as a ih =>
    rw [List.map_append, List.nodup_append] at h
    have hnew : key a ∉ keys (as.map fun a => (key a, a)) := by
      intro hmem
      rw [keys, List.map_map] at hmem
      exact h.2.2 _ hmem _ (List.mem_singleton_self _) rfl
    rw [List.foldl_append, ih h.1, List.map_append]
    exact set_of_not_mem hnew a

/-! ## Grouping -/

theorem exists_of_mem_keys_group {key : β → κ} {bs : List β} {k : κ}
    (h : k ∈ (group key bs).keys) : ∃ b ∈ bs, key b = k := by
  -- The keys placed so far are keys of what came so far.
  suffices hfold : ∀ (bs : List β) (l : Keyed κ (List β)),
      k ∈ keys (bs.foldl (fun l b => l.modify (key b) [] (· ++ [b])) l) →
        k ∈ l.keys ∨ ∃ b ∈ bs, key b = k from (hfold bs [] h).resolve_left (by simp [keys])
  intro bs
  induction bs with
  | nil => exact fun l h => .inl h
  | cons b bs ih =>
    intro l h
    rcases ih _ h with h | ⟨b', hb', hk⟩
    · rw [keys_modify] at h
      split at h
      · exact .inl h
      · rcases List.mem_append.1 h with h | h
        · exact .inl h
        · exact .inr ⟨b, List.mem_cons_self, (List.mem_singleton.1 h).symm⟩
    · exact .inr ⟨b', List.mem_cons_of_mem _ hb', hk⟩

theorem nodup_keys_group (key : β → κ) (bs : List β) : (group key bs).keys.Nodup := by
  suffices hfold : ∀ (bs : List β) (l : Keyed κ (List β)), l.keys.Nodup →
      (keys (bs.foldl (fun l b => l.modify (key b) [] (· ++ [b])) l)).Nodup from
    hfold bs [] List.nodup_nil
  intro bs
  induction bs with
  | nil => exact fun l h => h
  | cons b bs ih =>
    intro l h
    refine ih _ ?_
    rw [keys_modify]
    split
    · exact h
    · next hnew => exact List.nodup_append.2 ⟨h, by simp, by grind⟩

/-- A group has the values with its key, in the order they came in. -/
theorem get?_group (key : β → κ) (bs : List β) (k : κ) :
    ((group key bs).get? k).getD [] = bs.filter (key · = k) := by
  induction bs using List.reverseRecOn with
  | nil => rfl
  | append_singleton bs b ih =>
    have hstep : group key (bs ++ [b]) = (group key bs).modify (key b) [] (· ++ [b]) := by
      rw [group, List.foldl_append]
      rfl
    rw [hstep, get?_modify, List.filter_append]
    by_cases hk : k = key b
    · rw [if_pos hk, Option.getD_some, ← hk, ih, List.filter_singleton, hk, decide_eq_true rfl]
      rfl
    · rw [if_neg hk, ih, List.filter_singleton, decide_eq_false (Ne.symm hk)]
      exact (List.append_nil _).symm

theorem group_eq (key : β → κ) (bs : List β) :
    group key bs = (group key bs).keys.map fun k => (k, bs.filter (key · = k)) := by
  rw [keys, List.map_map]
  refine (List.map_id _).symm.trans (List.map_congr_left fun p hp => ?_)
  rw [Function.comp_apply, ← get?_group, get?_eq_some_of_mem (nodup_keys_group key bs) hp]
  rfl

theorem mem_keys_group {key : β → κ} {bs : List β} {k : κ} :
    k ∈ (group key bs).keys ↔ ∃ b ∈ bs, key b = k := by
  refine ⟨exists_of_mem_keys_group, ?_⟩
  rintro ⟨b, hb, hk⟩
  cases hget : (group key bs).get? k with
  | some ms => exact mem_keys_of_get? hget
  | none =>
    have hmem : b ∈ bs.filter (key · = k) := List.mem_filter.2 ⟨hb, decide_eq_true hk⟩
    rw [← get?_group, hget] at hmem
    cases hmem

/-- The key that comes first is placed first. -/
theorem keys_group_cons (key : β → κ) (b : β) (bs : List β) :
    ∃ rest, (group key (b :: bs)).keys = key b :: rest := by
  suffices hfold : ∀ (bs : List β) (l : Keyed κ (List β)), l.keys <+:
      keys (bs.foldl (fun l b => l.modify (key b) [] (· ++ [b])) l) by
    obtain ⟨rest, hrest⟩ := hfold bs (modify (key b) [] (· ++ [b]) [])
    exact ⟨rest, hrest.symm⟩
  intro bs
  induction bs with
  | nil => exact fun l => List.prefix_rfl
  | cons b bs ih =>
    intro l
    refine List.IsPrefix.trans ?_ (ih _)
    rw [keys_modify]
    split
    · exact List.prefix_rfl
    · exact List.prefix_append _ _

end Deadwood.Keyed
