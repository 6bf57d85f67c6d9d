import Deadwood.Proofs.Removal.Splice

/-!
The order in which edits are given. They are sorted by their ranges, so only edits with one and the
same range keep the order they are given in. It shows where a deletion meets a replacement, or one
insertion another, unless a deletion that covers more takes both (`order_shows_in_ties`).
-/
namespace Deadwood.Edit

section Order

variable {source : Bytes} {a b d e : Edit} {edits edits' before behind rest : List Edit}

/-- The text with the edits in place, unless they conflict. -/
def outcome? (source : Bytes) (edits : List Edit) : Option Bytes := (apply source edits).toOption

/-- What ordered edits come to, merged into the one before them. -/
def outcomeAfter? (source : Bytes) (a : Edit) (edits : List Edit) : Option Bytes :=
  ((mergeAfter a edits).map (spliceAll source)).toOption

theorem outcomeAfter?_cons (source : Bytes) (a b : Edit) (rest : List Edit) :
    outcomeAfter? source a (b :: rest) =
      if b.start < a.stop then
        if a.isDeletion ∧ b.stop ≤ a.stop then outcomeAfter? source a rest
        else if a.isDeletion ∧ b.isDeletion then outcomeAfter? source (cover a b) rest
        else none
      else (outcomeAfter? source b rest).map (splice · a) := by
  unfold outcomeAfter?
  rw [mergeAfter]
  split
  · split
    · rfl
    · split <;> rfl
  · cases mergeAfter b rest with
    | error c => rfl
    | ok merged => rfl

/-- An edit before all others that changes nothing. -/
def origin : Edit := ⟨0, 0, []⟩

theorem splice_of_isDeletion (h : e.isDeletion = true) (hempty : e.stop ≤ e.start) :
    splice source e = source := by
  rw [splice, isDeletion_iff.1 h, List.append_nil, max_eq_left hempty, List.take_append_drop]

theorem outcomeAfter?_origin_cons (source : Bytes) (b : Edit) (rest : List Edit) :
    outcomeAfter? source origin (b :: rest) = outcomeAfter? source b rest := by
  have hsplice : (splice · origin) = id := funext fun text => splice_of_isDeletion rfl le_rfl
  have hstart : ¬ b.start < origin.stop := Nat.not_lt_zero b.start
  rw [outcomeAfter?_cons, if_neg hstart, hsplice, Option.map_id_fun, id]

/-- Behind an edit the others come to what they come to alone. -/
theorem outcomeAfter?_eq_map (h : ∀ b ∈ edits, a.stop ≤ b.start) :
    outcomeAfter? source a edits = (outcomeAfter? source origin edits).map (splice · a) := by
  cases edits with
  | nil =>
    have horigin : splice source origin = source := splice_of_isDeletion rfl le_rfl
    exact congrArg (fun text => some (splice text a)) horigin.symm
  | cons b rest =>
    have hstart : ¬ b.start < a.stop := Nat.not_lt.2 (h b List.mem_cons_self)
    rw [outcomeAfter?_origin_cons, outcomeAfter?_cons, if_neg hstart]

theorem outcome?_eq (source : Bytes) (edits : List Edit) :
    outcome? source edits = outcomeAfter? source origin (edits.mergeSort le) := by
  unfold outcome? apply merge
  cases edits.mergeSort le with
  | nil => exact congrArg some (splice_of_isDeletion rfl le_rfl).symm
  | cons a rest => exact (outcomeAfter?_origin_cons source a rest).symm

/-! ### Edits that a deletion takes in -/

/-- A deletion in place of two edits takes in what one of them did. -/
theorem exists_absorbs {c : Edit} (hdel : c.isDeletion = true) (hstart : c.start ≤ e.start)
    (hstop : max a.stop b.stop ≤ c.stop) (h : ∃ d ∈ a :: b :: rest, Absorbs d e) :
    ∃ d ∈ c :: rest, Absorbs d e := by
  obtain ⟨d, hd, hin⟩ := h
  rw [max_le_iff] at hstop
  rcases List.mem_cons.1 hd with rfl | hd
  · exact ⟨c, List.mem_cons_self, hin.mono hdel hstart hstop.1⟩
  · rcases List.mem_cons.1 hd with rfl | hd
    · exact ⟨c, List.mem_cons_self, hin.mono hdel hstart hstop.2⟩
    · exact ⟨d, List.mem_cons_of_mem c hd, hin⟩

theorem mergeAfter_absorbed (h : ∃ d ∈ a :: before, Absorbs d e)
    (hstart : ∀ b ∈ a :: before, b.start ≤ e.start) :
    mergeAfter a (before ++ e :: behind) = mergeAfter a (before ++ behind) := by
  induction before generalizing a with
  | nil =>
    obtain ⟨d, hd, hin⟩ := h
    obtain rfl := List.mem_singleton.1 hd
    rw [List.nil_append, mergeAfter, if_pos hin.2.2.1, if_pos ⟨hin.1, hin.2.2.2⟩, List.nil_append]
  | cons b rest ih =>
    rw [List.forall_mem_cons, List.forall_mem_cons] at hstart
    obtain ⟨ha, hb, hrest⟩ := hstart
    rw [List.cons_append, List.cons_append, mergeAfter, mergeAfter]
    -- Whatever becomes of the next edit, a deletion that takes this one in is still before it.
    by_cases hlt : b.start < a.stop
    · rw [if_pos hlt, if_pos hlt]
      by_cases hswallow : a.isDeletion = true ∧ b.stop ≤ a.stop
      · rw [if_pos hswallow, if_pos hswallow]
        exact ih (exists_absorbs hswallow.1 ha (max_le le_rfl hswallow.2) h)
          (List.forall_mem_cons.2 ⟨ha, hrest⟩)
      · rw [if_neg hswallow, if_neg hswallow]
        by_cases hjoin : a.isDeletion = true ∧ b.isDeletion = true
        · rw [if_pos hjoin, if_pos hjoin]
          exact ih (exists_absorbs (isDeletion_cover a b) ha le_rfl h)
            (List.forall_mem_cons.2 ⟨ha, hrest⟩)
        · rw [if_neg hjoin, if_neg hjoin]
    · rw [if_neg hlt, if_neg hlt]
      refine congrArg _ (ih ?_ (List.forall_mem_cons.2 ⟨hb, hrest⟩))
      obtain ⟨d, hd, hin⟩ := h
      rcases List.mem_cons.1 hd with rfl | hd
      · have := hin.2.2.1
        omega
      · exact ⟨d, hd, hin⟩

theorem outcomeAfter?_absorbed (h : ∃ d ∈ a :: before, Absorbs d e)
    (hstart : ∀ b ∈ a :: before, b.start ≤ e.start) :
    outcomeAfter? source a (before ++ e :: behind) = outcomeAfter? source a (before ++ behind) :=
  congrArg (fun m : Except Conflict (List Edit) => (m.map (spliceAll source)).toOption)
    (mergeAfter_absorbed h hstart)

/-! ### Edits at one place -/

/-- With one range. -/
def Tied (a b : Edit) : Prop := a.start = b.start ∧ a.stop = b.stop

theorem Tied.eq_of_isDeletion (h : Tied a b) (ha : a.isDeletion = true) (hb : b.isDeletion = true) :
    a = b := by
  rw [isDeletion_iff] at ha hb
  cases a
  cases b
  simp_all [Tied]

theorem Tied.absorbs (h : Tied a b) (hd : Absorbs d a) : Absorbs d b := by
  unfold Absorbs at hd ⊢
  rw [← h.1, ← h.2]
  exact hd

/-- A deletion and a replacement of one range with something in it. -/
def Clash (a b : Edit) : Prop := Tied a b ∧ a.start < a.stop ∧ a.isDeletion ≠ b.isDeletion

/-- Different texts to put in at one place. -/
def Compete (a b : Edit) : Prop :=
  Tied a b ∧ a.stop ≤ a.start ∧ a.isDeletion = false ∧ b.isDeletion = false ∧ a ≠ b

/-- A deletion takes an edit in and covers more. -/
def Outdoes (d e : Edit) : Prop := Absorbs d e ∧ (d.start < e.start ∨ e.stop < d.stop)

theorem splice_comm (hempty : a.stop ≤ a.start) (htied : Tied a b) (h : ¬ Compete a b) :
    splice (splice source a) b = splice (splice source b) a := by
  have hempty' : b.stop ≤ b.start := by rw [← htied.1, ← htied.2]; exact hempty
  cases ha : a.isDeletion with
  | true => rw [splice_of_isDeletion ha hempty, splice_of_isDeletion ha hempty]
  | false =>
    cases hb : b.isDeletion with
    | true => rw [splice_of_isDeletion hb hempty', splice_of_isDeletion hb hempty']
    | false =>
      by_cases hab : a = b
      · rw [hab]
      · exact absurd ⟨htied, hempty, ha, hb, hab⟩ h

/-- Edits at one place may change places if they neither clash nor compete. -/
theorem outcomeAfter?_swap (q : Edit) (htied : Tied a b) (h : ¬ (Clash a b ∨ Compete a b))
    (hrest : ∀ c ∈ rest, a.start ≤ c.start) :
    outcomeAfter? source q (a :: b :: rest) = outcomeAfter? source q (b :: a :: rest) := by
  rw [not_or] at h
  by_cases hne : a.start < a.stop
  · have hkind : a.isDeletion = b.isDeletion := not_not.1 fun hc => h.1 ⟨htied, hne, hc⟩
    cases ha : a.isDeletion with
    | true => rw [htied.eq_of_isDeletion ha (hkind ▸ ha)]
    | false =>
      -- A deletion before takes in both, else there is a conflict.
      have hb : b.isDeletion = false := hkind ▸ ha
      by_cases hlt : a.start < q.stop <;>
        simp [outcomeAfter?_cons, ← htied.1, ← htied.2, ha, hb, hne, hlt]
  · have hempty : a.stop ≤ a.start := Nat.le_of_not_lt hne
    by_cases hlt : a.start < q.stop
    · have hin : a.stop ≤ q.stop := hempty.trans hlt.le
      cases hq : q.isDeletion <;> simp [outcomeAfter?_cons, ← htied.1, ← htied.2, hq, hlt, hin]
    · have hbehind : ∀ c ∈ rest, a.stop ≤ c.start := fun c hc => hempty.trans (hrest c hc)
      have hbehind' : ∀ c ∈ rest, b.stop ≤ c.start := htied.2 ▸ hbehind
      simp only [outcomeAfter?_cons, ← htied.1, ← htied.2, hlt, hne, if_false,
        outcomeAfter?_eq_map hbehind, outcomeAfter?_eq_map hbehind', Option.map_map]
      refine congrArg (Option.map · _) (funext fun text => ?_)
      exact congrArg (splice · q) (splice_comm hempty htied h.2).symm

/-- So they may behind any others. -/
theorem outcomeAfter?_append (h : ∀ q, outcomeAfter? source q edits = outcomeAfter? source q edits')
    (q : Edit) (before : List Edit) :
    outcomeAfter? source q (before ++ edits) = outcomeAfter? source q (before ++ edits') := by
  induction before generalizing q with
  | nil => exact h q
  | cons b rest ih => simp only [List.cons_append, outcomeAfter?_cons, ih]

/-- What a deletion before takes in may change places anyway. -/
theorem outcomeAfter?_swap_behind {q : Edit} (htied : Tied a b)
    (h : Clash a b ∨ Compete a b → ∃ d ∈ before, Absorbs d a) (hq : q.start ≤ a.start)
    (hbefore : ∀ c ∈ before, c.start ≤ a.start) (hrest : ∀ c ∈ rest, a.start ≤ c.start) :
    outcomeAfter? source q (before ++ a :: b :: rest) =
      outcomeAfter? source q (before ++ b :: a :: rest) := by
  by_cases hshows : Clash a b ∨ Compete a b
  · obtain ⟨d, hd, hin⟩ := h hshows
    have hstart : ∀ c ∈ q :: before, c.start ≤ a.start := List.forall_mem_cons.2 ⟨hq, hbefore⟩
    have hstart' : ∀ c ∈ q :: before, c.start ≤ b.start := htied.1 ▸ hstart
    have ha : ∃ d ∈ q :: before, Absorbs d a := ⟨d, List.mem_cons_of_mem q hd, hin⟩
    have hb : ∃ d ∈ q :: before, Absorbs d b := ⟨d, List.mem_cons_of_mem q hd, htied.absorbs hin⟩
    rw [outcomeAfter?_absorbed ha hstart, outcomeAfter?_absorbed hb hstart',
      outcomeAfter?_absorbed hb hstart', outcomeAfter?_absorbed ha hstart]
  · exact outcomeAfter?_append (fun q => outcomeAfter?_swap q htied hshows hrest) q before

/-- An edit goes before those at its place. -/
theorem outcomeAfter?_move {ties : List Edit} (hties : ∀ b ∈ ties, Tied b a)
    (h : ∀ b ∈ ties, Clash b a ∨ Compete b a → ∃ d ∈ before, Absorbs d b)
    (hbefore : ∀ c ∈ before, c.start ≤ a.start) (hrest : ∀ c ∈ rest, a.start ≤ c.start) :
    outcomeAfter? source origin (before ++ (ties ++ a :: rest)) =
      outcomeAfter? source origin (before ++ a :: (ties ++ rest)) := by
  induction ties generalizing before with
  | nil => rfl
  | cons b ties ih =>
    rw [List.forall_mem_cons] at hties h
    have hab : a.start = b.start := hties.1.1.symm
    have hbehind : ∀ c ∈ ties ++ rest, b.start ≤ c.start := by
      intro c hc
      rcases List.mem_append.1 hc with hc | hc
      · rw [(hties.2 c hc).1, hab]
      · exact hab ▸ hrest c hc
    calc outcomeAfter? source origin (before ++ (b :: ties ++ a :: rest))
        = outcomeAfter? source origin ((before ++ [b]) ++ (ties ++ a :: rest)) := by simp
      _ = outcomeAfter? source origin ((before ++ [b]) ++ a :: (ties ++ rest)) := by
          refine ih hties.2 (fun c hc hshows => ?_) fun c hc => ?_
          · obtain ⟨d, hd, hin⟩ := h.2 c hc hshows
            exact ⟨d, List.mem_append_left [b] hd, hin⟩
          · rcases List.mem_append.1 hc with hc | hc
            · exact hbefore c hc
            · rw [List.mem_singleton.1 hc, hab]
      _ = outcomeAfter? source origin (before ++ b :: a :: (ties ++ rest)) := by simp
      _ = outcomeAfter? source origin (before ++ a :: (b :: ties ++ rest)) :=
          outcomeAfter?_swap_behind hties.1 h.1 (Nat.zero_le _) (hab ▸ hbefore) hbehind

/-! ### Texts put in at one place -/

def isPutIn (i j : Nat) (e : Edit) : Bool := ! e.isDeletion && e.start == i && e.stop == j

/-- What is put in for a range, in the order given. -/
def putIn (edits : List Edit) (i j : Nat) : List Edit := edits.filter (isPutIn i j)

theorem isPutIn_iff {i j : Nat} :
    isPutIn i j e = true ↔ e.isDeletion = false ∧ e.start = i ∧ e.stop = j := by
  simp [isPutIn, and_assoc]

/-- Sorting keeps the order of what is put in for one range. -/
theorem putIn_mergeSort (edits : List Edit) (i j : Nat) :
    putIn (edits.mergeSort le) i j = putIn edits i j := by
  have hs : Sorted (putIn edits i j) := by
    refine List.pairwise_of_forall_mem_list fun a ha b hb => ?_
    have ha' := isPutIn_iff.1 (List.mem_filter.1 ha).2
    have hb' := isPutIn_iff.1 (List.mem_filter.1 hb).2
    rw [le_iff]
    omega
  have hsub : (putIn edits i j).Sublist (edits.mergeSort le) :=
    List.sublist_mergeSort (fun a b c (hab : le a b = true) (hbc : le b c = true) =>
      le_of_le_of_le hab hbc) le_or_le hs List.filter_sublist
  have hsub' : (putIn edits i j).Sublist (putIn (edits.mergeSort le) i j) := by
    have hfilter := hsub.filter (isPutIn i j)
    rwa [putIn, List.filter_filter, funext fun e => Bool.and_self (isPutIn i j e)] at hfilter
  exact (hsub'.eq_of_length ((List.mergeSort_perm edits le).filter _).length_eq.symm).symm

/-- If the order stays, no other text is put in before the first one. -/
theorem putIn_of_cons {i j : Nat} {ties : List Edit} (hnot : a ∉ ties)
    (h : putIn (ties ++ a :: behind) i j = putIn (a :: rest) i j) :
    putIn (ties ++ behind) i j = putIn rest i j ∧ (isPutIn i j a = true → putIn ties i j = []) := by
  unfold putIn at h ⊢
  rw [List.filter_append, List.filter_cons, List.filter_cons] at h
  rw [List.filter_append]
  by_cases ha : isPutIn i j a = true
  · rw [if_pos ha, if_pos ha] at h
    cases hties : ties.filter (isPutIn i j) with
    | nil =>
      rw [hties] at h
      exact ⟨(List.cons.inj h).2, fun _ => rfl⟩
    | cons c others =>
      rw [hties] at h
      have hc : c ∈ ties.filter (isPutIn i j) := hties ▸ List.mem_cons_self
      rw [(List.cons.inj h).1] at hc
      exact absurd (List.mem_of_mem_filter hc) hnot
  · rw [if_neg ha, if_neg ha] at h
    exact ⟨h, fun ha' => absurd ha' ha⟩

/-! ### Edits in any order -/

theorem le_self (a : Edit) : le a a = true := le_iff.2 (.inr ⟨rfl, le_rfl⟩)

theorem le_of_not_le (h : ¬ le a b = true) : le b a = true := by
  rw [le_iff] at h ⊢
  omega

theorem Absorbs.le (h : Absorbs d e) : le d e = true := by
  have hstart := h.2.1
  have hstop := h.2.2.2
  rw [le_iff]
  omega

theorem tied_of_le (hab : le a b = true) (hba : le b a = true) : Tied a b := by
  rw [le_iff] at hab hba
  constructor <;> omega

/-- What outdoes an edit comes before those at its place. -/
theorem Outdoes.not_le (h : Outdoes d b) (htied : Tied b a) : ¬ le a d = true := by
  rw [le_iff, ← htied.1, ← htied.2]
  have hstart := h.1.2.1
  have hmore := h.2
  omega

/-- A deletion takes the byte at an offset. -/
def Takes (d : Edit) (i : Nat) : Prop := d.isDeletion = true ∧ d.start ≤ i ∧ i < d.stop

theorem Takes.outdoes (h : Takes d e.start) (hempty : e.stop ≤ e.start) : Outdoes d e :=
  have hlt := hempty.trans_lt h.2.2
  ⟨⟨h.1, h.2.1, h.2.2, hlt.le⟩, .inr hlt⟩

/-- Of two edits at one place whose order shows, the one that is put first is outdone. -/
theorem exists_outdoes {all ties : List Edit} (hb : b ∈ ties) (hnot : a ∉ ties)
    (hclash : Clash b a → ∃ d ∈ all, Outdoes d b)
    (hputIn : b.stop ≤ b.start → (∃ d ∈ all, Takes d b.start) ∨
      putIn (ties ++ a :: behind) b.start b.stop = putIn (a :: rest) b.start b.stop)
    (h : Clash b a ∨ Compete b a) : ∃ d ∈ all, Outdoes d b := by
  rcases h with h | ⟨htied, hempty, hb', ha', -⟩
  · exact hclash h
  · rcases hputIn hempty with ⟨d, hd, htakes⟩ | heq
    · exact ⟨d, hd, htakes.outdoes hempty⟩
    · have hnil := (putIn_of_cons hnot heq).2 (isPutIn_iff.2 ⟨ha', htied.1.symm, htied.2.symm⟩)
      have hin : b ∈ putIn ties b.start b.stop :=
        List.mem_filter.2 ⟨hb, isPutIn_iff.2 ⟨hb', rfl, rfl⟩⟩
      rw [hnil] at hin
      cases hin

/-- The first of ordered edits may go to the front wherever it is among the same edits. -/
theorem outcomeAfter?_move_first {ties : List Edit}
    (hperm : (a :: rest).Perm (ties ++ a :: behind)) (hnot : a ∉ ties) (hs : Sorted (a :: rest))
    (hs' : Sorted (ties ++ a :: behind)) (hbefore : ∀ c ∈ before, c.start ≤ a.start)
    (hclash : ∀ b ∈ a :: rest, Clash b a → ∃ d ∈ before ++ a :: rest, Outdoes d b)
    (hputIn : ∀ b ∈ a :: rest, b.stop ≤ b.start → (∃ d ∈ before ++ a :: rest, Takes d b.start) ∨
      putIn (ties ++ a :: behind) b.start b.stop = putIn (a :: rest) b.start b.stop) :
    outcomeAfter? source origin (before ++ (ties ++ a :: behind)) =
      outcomeAfter? source origin (before ++ a :: (ties ++ behind)) := by
  obtain ⟨-, hs'', hcross⟩ := List.pairwise_append.1 hs'
  have hfirst : ∀ b ∈ a :: rest, le a b = true :=
    List.forall_mem_cons.2 ⟨le_self a, (List.pairwise_cons.1 hs).1⟩
  have hmem : ∀ b ∈ ties, b ∈ a :: rest := fun b hb =>
    hperm.mem_iff.2 (List.mem_append_left _ hb)
  have hties : ∀ b ∈ ties, Tied b a := fun b hb =>
    tied_of_le (hcross b hb a List.mem_cons_self) (hfirst b (hmem b hb))
  refine outcomeAfter?_move hties (fun b hb hshows => ?_) hbefore fun c hc => Sorted.start_le hs'' hc
  obtain ⟨d, hd, hout⟩ :=
    exists_outdoes hb hnot (hclash b (hmem b hb)) (hputIn b (hmem b hb)) hshows
  rcases List.mem_append.1 hd with hd | hd
  · exact ⟨d, hd, hout.1⟩
  · exact absurd (hfirst d hd) (hout.not_le (hties b hb))

/-- Ordered edits come to the same however those at one place follow each other. -/
theorem outcomeAfter?_of_perm (hperm : edits.Perm edits') (hs : Sorted edits) (hs' : Sorted edits')
    (hbefore : ∀ c ∈ before, ∀ b ∈ edits, c.start ≤ b.start)
    (hclash : ∀ a ∈ edits, ∀ b ∈ edits, Clash a b → ∃ d ∈ before ++ edits, Outdoes d a)
    (hputIn : ∀ a ∈ edits, a.stop ≤ a.start → (∃ d ∈ before ++ edits, Takes d a.start) ∨
      putIn edits' a.start a.stop = putIn edits a.start a.stop) :
    outcomeAfter? source origin (before ++ edits) =
      outcomeAfter? source origin (before ++ edits') := by
  induction edits generalizing before edits' with
  | nil => rw [List.nil_perm.1 hperm]
  | cons a rest ih =>
    -- The first of the one list is in the other behind edits at its place.
    obtain ⟨ties, behind, rfl, hnot⟩ :=
      List.eq_append_cons_of_mem (hperm.mem_iff.1 List.mem_cons_self)
    have hmem : ∀ d, d ∈ before ++ a :: rest ↔ d ∈ (before ++ [a]) ++ rest := by simp
    calc outcomeAfter? source origin (before ++ a :: rest)
        = outcomeAfter? source origin ((before ++ [a]) ++ rest) := by simp
      _ = outcomeAfter? source origin ((before ++ [a]) ++ (ties ++ behind)) := by
          refine ih (hperm.trans List.perm_middle).cons_inv hs.tail
            (hs'.sublist ((List.Sublist.refl ties).append (List.sublist_cons_self a behind)))
            ?_ ?_ ?_
          · intro c hc b hb
            rcases List.mem_append.1 hc with hc | hc
            · exact hbefore c hc b (List.mem_cons_of_mem a hb)
            · exact List.mem_singleton.1 hc ▸ hs.start_le hb
          · intro b hb c hc hshows
            obtain ⟨d, hd, hout⟩ :=
              hclash b (List.mem_cons_of_mem a hb) c (List.mem_cons_of_mem a hc) hshows
            exact ⟨d, (hmem d).1 hd, hout⟩
          · intro b hb hempty
            rcases hputIn b (List.mem_cons_of_mem a hb) hempty with ⟨d, hd, htakes⟩ | heq
            · exact .inl ⟨d, (hmem d).1 hd, htakes⟩
            · exact .inr (putIn_of_cons hnot heq).1
      _ = outcomeAfter? source origin (before ++ a :: (ties ++ behind)) := by simp
      _ = outcomeAfter? source origin (before ++ (ties ++ a :: behind)) :=
          (outcomeAfter?_move_first hperm hnot hs hs'
            (fun c hc => hbefore c hc a List.mem_cons_self)
            (fun b hb => hclash b hb a List.mem_cons_self) hputIn).symm

/-- Where a deletion and a replacement clash, a deletion that covers more takes them in. -/
def Settled (edits : List Edit) : Prop :=
  ∀ a ∈ edits, ∀ b ∈ edits, Clash a b → ∃ d ∈ edits, Outdoes d a

/-- What is put in at one place comes in the same order, or a deletion takes it in. -/
def SameInsertions (edits edits' : List Edit) : Prop :=
  ∀ a ∈ edits, a.stop ≤ a.start → (∃ d ∈ edits, Takes d a.start) ∨
    putIn edits' a.start a.stop = putIn edits a.start a.stop

theorem outcome?_of_perm {sorted : List Edit} (h : Settled edits) (hperm : edits.Perm sorted)
    (hs : Sorted sorted) (hputIn : SameInsertions edits sorted) :
    outcome? source edits = outcomeAfter? source origin sorted := by
  have hmem : ∀ d, d ∈ edits ↔ d ∈ [] ++ edits.mergeSort le := by simp
  have hsorted : outcomeAfter? source origin ([] ++ edits.mergeSort le) =
      outcomeAfter? source origin ([] ++ sorted) := by
    refine outcomeAfter?_of_perm ((List.mergeSort_perm edits le).trans hperm)
      (sorted_mergeSort edits) hs (by simp) (fun a ha b hb hclash => ?_) fun a ha hempty => ?_
    · obtain ⟨d, hd, hout⟩ := h a (List.mem_mergeSort.1 ha) b (List.mem_mergeSort.1 hb) hclash
      exact ⟨d, (hmem d).1 hd, hout⟩
    · rw [putIn_mergeSort]
      exact (hputIn a (List.mem_mergeSort.1 ha) hempty).imp_left fun ⟨d, hd, htakes⟩ =>
        ⟨d, (hmem d).1 hd, htakes⟩
  rw [outcome?_eq]
  exact hsorted

/-- Where an edit goes among ordered ones. -/
theorem Sorted.exists_split (hs : Sorted edits) (e : Edit) : ∃ before behind,
    edits = before ++ behind ∧ (∀ d ∈ before, le d e = true) ∧ ∀ d ∈ behind, ¬ le d e = true := by
  induction edits with
  | nil => exact ⟨[], [], rfl, by simp, by simp⟩
  | cons a rest ih =>
    by_cases ha : le a e = true
    · obtain ⟨before, behind, rfl, hbefore, hbehind⟩ := ih hs.tail
      exact ⟨a :: before, behind, rfl, List.forall_mem_cons.2 ⟨ha, hbefore⟩, hbehind⟩
    · refine ⟨[], a :: rest, rfl, by simp, List.forall_mem_cons.2 ⟨ha, fun d hd hle => ha ?_⟩⟩
      exact le_of_le_of_le ((List.pairwise_cons.1 hs).1 d hd) hle

theorem Sorted.insert (hs : Sorted (before ++ behind)) (hbefore : ∀ d ∈ before, le d e = true)
    (hbehind : ∀ d ∈ behind, ¬ le d e = true) : Sorted (before ++ e :: behind) := by
  obtain ⟨hs, hs', hcross⟩ := List.pairwise_append.1 hs
  refine List.pairwise_append.2 ⟨hs, List.pairwise_cons.2 ⟨?_, hs'⟩, fun a ha => ?_⟩
  · exact fun d hd => le_of_not_le (hbehind d hd)
  · exact List.forall_mem_cons.2 ⟨hbefore a ha, hcross a ha⟩

/-- The order in which edits are given shows only in clashes that no deletion settles and in what is
put in at one place; and without such clashes an edit that starts in a deletion and does not reach
out of it changes nothing. -/
theorem order_shows_in_ties (source : Bytes) (edits : List Edit) (h : Settled edits) :
    (∀ edits', edits.Perm edits' → SameInsertions edits edits' →
      outcome? source edits' = outcome? source edits) ∧
    ∀ before e behind, edits = before ++ e :: behind → (∃ d ∈ before ++ behind, Absorbs d e) →
      outcome? source (before ++ behind) = outcome? source edits := by
  constructor
  · intro edits' hperm hputIn
    rw [outcome?_eq source edits']
    refine (outcome?_of_perm h (hperm.trans (List.mergeSort_perm edits' le).symm)
      (sorted_mergeSort edits') fun a ha hempty => ?_).symm
    rw [putIn_mergeSort]
    exact hputIn a ha hempty
  · rintro before e behind rfl ⟨d, hd, hin⟩
    have hs := sorted_mergeSort (before ++ behind)
    have hperm := List.mergeSort_perm (before ++ behind) le
    have hputIn := putIn_mergeSort (before ++ behind)
    obtain ⟨first, last, hsplit, hfirst, hlast⟩ := hs.exists_split e
    rw [hsplit] at hs hperm hputIn
    have hperm' : (before ++ e :: behind).Perm (first ++ e :: last) :=
      List.perm_middle.trans ((hperm.symm.cons e).trans List.perm_middle.symm)
    have hd' : d ∈ first := by
      rcases List.mem_append.1 (hperm.mem_iff.2 hd) with hd | hd
      · exact hd
      · exact absurd hin.le (hlast d hd)
    have hstart : ∀ b ∈ origin :: first, b.start ≤ e.start := by
      refine List.forall_mem_cons.2 ⟨Nat.zero_le _, fun b hb => ?_⟩
      have hle := le_iff.1 (hfirst b hb)
      omega
    -- The deletion takes in all that is put in where the edit starts.
    have hsame : SameInsertions (before ++ e :: behind) (first ++ e :: last) := by
      intro a _ _
      by_cases hi : e.start = a.start
      · exact .inl ⟨d, List.perm_middle.mem_iff.2 (List.mem_cons_of_mem e hd), hin.1,
          hi ▸ hin.2.1, hi ▸ hin.2.2.1⟩
      · have hnot : ¬ isPutIn a.start a.stop e = true := fun hput => hi (isPutIn_iff.1 hput).2.1
        have hsame := hputIn a.start a.stop
        unfold putIn at hsame ⊢
        rw [List.filter_append, List.filter_append] at hsame
        rw [List.filter_append, List.filter_append, List.filter_cons_of_neg hnot,
          List.filter_cons_of_neg hnot]
        exact .inr hsame
    rw [outcome?_of_perm h hperm' (hs.insert hfirst hlast) hsame,
      outcomeAfter?_absorbed ⟨d, List.mem_cons_of_mem origin hd', hin⟩ hstart, outcome?_eq, hsplit]

theorem outcome?_of_sorted (hs : Sorted edits) :
    outcome? source edits = outcomeAfter? source origin edits := by
  rw [outcome?_eq, List.mergeSort_of_pairwise hs]

/-- A deletion takes in a replacement of its range that is given after it, and conflicts with one that
is given before it. -/
theorem outcome?_clash (source : Bytes) (hd : d.isDeletion = true) (he : e.isDeletion = false)
    (htied : Tied d e) (hne : d.start < d.stop) :
    outcome? source [d, e] = outcome? source [d] ∧ outcome? source [e, d] = none := by
  have hs : Sorted [d, e] := by simp [Sorted, le_iff, htied.1, htied.2]
  have hs' : Sorted [e, d] := by simp [Sorted, le_iff, htied.1, htied.2]
  have hs'' : Sorted [d] := List.pairwise_singleton _ d
  rw [outcome?_of_sorted hs, outcome?_of_sorted hs', outcome?_of_sorted hs'']
  simp only [outcomeAfter?_origin_cons, outcomeAfter?_cons source d, outcomeAfter?_cons source e]
  simp [← htied.1, ← htied.2, hd, he, hne]

instance : Decidable (Tied a b) := inferInstanceAs (Decidable (_ ∧ _))

instance : Decidable (Clash a b) := inferInstanceAs (Decidable (_ ∧ _ ∧ _ ≠ _))

instance : Decidable (Absorbs d e) := inferInstanceAs (Decidable (_ ∧ _))

instance : Decidable (Outdoes d e) := inferInstanceAs (Decidable (_ ∧ _))

instance (i : Nat) : Decidable (Takes d i) := inferInstanceAs (Decidable (_ ∧ _))

instance : Decidable (Settled edits) :=
  inferInstanceAs (Decidable (∀ a ∈ edits, ∀ b ∈ edits, Clash a b → ∃ d ∈ edits, Outdoes d a))

instance : Decidable (SameInsertions edits edits') :=
  inferInstanceAs (Decidable (∀ a ∈ edits, a.stop ≤ a.start → (∃ d ∈ edits, Takes d a.start) ∨ _))

end Order

namespace Clashing

def source : Bytes := Utf8.encode "0123456789"

def deletion : Edit := ⟨0, 4, []⟩

/-- Of what the deletion takes. -/
def change : Edit := ⟨0, 4, Utf8.encode "x"⟩

/-- The deletion that settles it. -/
def longer : Edit := ⟨0, 6, []⟩

def first : Edit := ⟨8, 8, Utf8.encode "a"⟩

/-- Put in at the same place. -/
def second : Edit := ⟨8, 8, Utf8.encode "b"⟩

end Clashing

open Clashing in
theorem order_shows_in_ties_sample :
    outcome? source [deletion, first, longer, second, change] =
      outcome? source [change, deletion, longer, first, second] ∧
    outcome? source [deletion, longer, first, second] =
      outcome? source [change, deletion, longer, first, second] :=
  have h := order_shows_in_ties source [change, deletion, longer, first, second] (by decide)
  ⟨h.1 _ (by decide) (by decide),
    h.2 [] change [deletion, longer, first, second] rfl ⟨longer, by decide, by decide⟩⟩

open Clashing in
/-- The order of a deletion and a replacement decides whether they conflict, and whether the
replacement may go. -/
theorem clash_shows :
    deletion.start ≤ change.start ∧ change.stop ≤ deletion.stop ∧
    deletion.isDeletion = true ∧
    outcome? source [deletion, change] = some (Utf8.encode "456789") ∧
    outcome? source [change, deletion] = none ∧
    outcome? source [deletion] = some (Utf8.encode "456789") := by
  have hdeletion : deletion.isDeletion = true := rfl
  have hchange : change.isDeletion = false := by decide
  obtain ⟨hfirst, hlast⟩ := outcome?_clash source hdeletion hchange (by decide) (by decide)
  have hdeleted : outcome? source [deletion] = some (Utf8.encode "456789") := by cbv
  exact ⟨by decide, by decide, hdeletion, hfirst.trans hdeleted, hlast, hdeleted⟩

end Deadwood.Edit
