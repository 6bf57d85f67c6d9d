import Deadwood.Analysis.Fingerprint
import Deadwood.Proofs.Keyed
import Deadwood.Proofs.Sorting
import Mathlib.Data.List.Count
import Mathlib.Data.Prod.Lex
import Mathlib.Data.String.Basic

/-!
Groups of duplicates. Entries are parted by their hashes, each group lists the places with its hash
in order, and the groups stand by where they start (`collect_parts`). Which entries came first
shows only in ties: where groups start at one line, or entries at one place differ in their
excerpts (`collect_eq_of_perm_iff`).
-/
namespace Deadwood

namespace Location

/-- File, first line, last line and name, in this order. -/
def key (l : Location) : String ×ₗ ℕ ×ₗ ℕ ×ₗ String :=
  toLex (l.file, toLex (l.startLine, toLex (l.endLine, l.name)))

theorem key_injective : Function.Injective key := by
  rintro ⟨file, startLine, endLine, name⟩ ⟨file', startLine', endLine', name'⟩ h
  simpa [key] using h

theorem le_iff (a b : Location) : a.le b = true ↔ a.key ≤ b.key := by
  rw [le, order, Ordering.then_assoc, Ordering.then_assoc]
  exact isLE_compare_iff a.key b.key

end Location

namespace DuplicateGroup

variable {entries entries' members members' : List (Fingerprint × Location)} {hash : Bytes}
  {g g' : DuplicateGroup}

/-- File and first line of the first location. -/
def start (g : DuplicateGroup) : String ×ₗ ℕ := toLex (g.first.file, g.first.startLine)

theorem le_iff (a b : DuplicateGroup) : a.le b = true ↔ a.start ≤ b.start :=
  isLE_compare_iff a.start b.start

/-! ## One group -/

def sorted (members : List (Fingerprint × Location)) : List (Fingerprint × Location) :=
  members.mergeSort fun a b => a.2.le b.2

theorem sorted_perm (members : List (Fingerprint × Location)) : (sorted members).Perm members :=
  List.mergeSort_perm members _

theorem pairwise_sorted (members : List (Fingerprint × Location)) :
    ((sorted members).map (·.2)).Pairwise (·.key ≤ ·.key) := by
  rw [List.pairwise_map]
  exact pairwise_mergeSort_of_key (fun a b => Location.le_iff a.2 b.2) members

theorem head_sorted_mem {e : Fingerprint × Location} (h : (sorted members).head? = some e) :
    e ∈ members :=
  (sorted_perm members).mem_iff.1 (List.mem_of_head? h)

/-- Two members make a group: their places in order, and the fingerprint that comes at the first. -/
theorem ofMembers?_eq_some : ofMembers? members = some g ↔ 2 ≤ members.length ∧
    (sorted members).map (·.2) = g.locations ∧
    (sorted members).head? = some (g.fingerprint, g.first) := by
  obtain ⟨fingerprint, first, others⟩ := g
  rw [← (sorted_perm members).length_eq, ofMembers?, ← sorted, locations]
  match sorted members with
  | [] => simp
  | [e] => simp
  | (fp, fst) :: (fp', snd) :: rest =>
    simp only [Option.some.injEq, mk.injEq, List.length_cons, Nat.le_add_left, List.map_cons,
      List.cons.injEq, List.head?_cons, Prod.mk.injEq, true_and]
    constructor
    · rintro ⟨rfl, rfl, rfl⟩
      exact ⟨⟨rfl, rfl⟩, rfl, rfl⟩
    · rintro ⟨⟨-, rfl⟩, rfl, rfl⟩
      exact ⟨rfl, rfl, rfl⟩

theorem ofMembers?_isSome : (ofMembers? members).isSome = decide (2 ≤ members.length) := by
  rw [← (sorted_perm members).length_eq, ofMembers?, ← sorted]
  match sorted members with
  | [] => rfl
  | [e] => rfl
  | (fp, fst) :: (fp', snd) :: rest => simp

theorem locations_perm (h : ofMembers? members = some g) :
    g.locations.Perm (members.map (·.2)) := by
  rw [← (ofMembers?_eq_some.1 h).2.1]
  exact (sorted_perm members).map _

theorem pairwise_locations (h : ofMembers? members = some g) :
    g.locations.Pairwise (·.key ≤ ·.key) := by
  rw [← (ofMembers?_eq_some.1 h).2.1]
  exact pairwise_sorted members

theorem first_mem (h : ofMembers? members = some g) : (g.fingerprint, g.first) ∈ members :=
  head_sorted_mem (ofMembers?_eq_some.1 h).2.2

/-- No member comes before the first location. -/
theorem first_le (h : ofMembers? members = some g) {e : Fingerprint × Location} (he : e ∈ members) :
    g.first.key ≤ e.2.key := by
  have hmem : e.2 ∈ g.locations := (locations_perm h).mem_iff.2 (List.mem_map_of_mem he)
  rw [locations, List.mem_cons] at hmem
  rcases hmem with heq | hmem
  · rw [heq]
  · exact List.rel_of_pairwise_cons (pairwise_locations h) hmem

/-- The order of members shows only in the fingerprints at the first location. -/
theorem ofMembers?_eq_of_perm (hperm : members.Perm members') (h : ofMembers? members = some g)
    (hfirst : ∀ e ∈ members, e.2 = g.first → e.1 = g.fingerprint) :
    ofMembers? members' = some g := by
  obtain ⟨hlength, hplaces, -⟩ := ofMembers?_eq_some.1 h
  have hsame : (sorted members').map (·.2) = g.locations := by
    rw [← hplaces]
    apply List.Perm.eq_of_pairwise _ (pairwise_sorted members') (pairwise_sorted members)
    · exact ((sorted_perm members').trans (hperm.symm.trans (sorted_perm members).symm)).map _
    · intro a b _ _ hab hba
      exact Location.key_injective (le_antisymm hab hba)
  refine ofMembers?_eq_some.2 ⟨hperm.length_eq ▸ hlength, hsame, ?_⟩
  cases hs : sorted members' with
  | nil =>
    rw [hs] at hsame
    cases hsame
  | cons e rest =>
    rw [hs, List.map_cons, locations, List.cons.injEq] at hsame
    have he : e ∈ members :=
      hperm.mem_iff.2 ((sorted_perm members').mem_iff.1 (hs ▸ List.mem_cons_self))
    rw [List.head?_cons, ← hfirst e he hsame.1, ← hsame.1]

/-! ## All groups -/

def withHash (entries : List (Fingerprint × Location)) (hash : Bytes) :
    List (Fingerprint × Location) :=
  entries.filter (·.1.hash = hash)

/-- The hashes of the entries, each once. -/
def hashes (entries : List (Fingerprint × Location)) : List Bytes :=
  (Keyed.group (·.1.hash) entries).keys

/-- The groups in the order in which their hashes came up. -/
def arriving (entries : List (Fingerprint × Location)) : List DuplicateGroup :=
  (hashes entries).filterMap fun hash => ofMembers? (withHash entries hash)

theorem collect_eq (entries : List (Fingerprint × Location)) :
    collect entries = (arriving entries).mergeSort le := by
  rw [collect, Keyed.group_eq, List.filterMap_map]
  rfl

theorem collect_perm (entries : List (Fingerprint × Location)) :
    (collect entries).Perm (arriving entries) := by
  rw [collect_eq]
  exact List.mergeSort_perm _ _

theorem hash_eq (h : ofMembers? (withHash entries hash) = some g) : g.fingerprint.hash = hash :=
  of_decide_eq_true (List.mem_filter.1 (first_mem h)).2

theorem nodup_hashes (entries : List (Fingerprint × Location)) : (hashes entries).Nodup :=
  Keyed.nodup_keys_group _ entries

theorem mem_hashes : hash ∈ hashes entries ↔ ∃ e ∈ entries, e.1.hash = hash :=
  Keyed.mem_keys_group

theorem mem_hashes_of_group (h : ofMembers? (withHash entries hash) = some g) :
    hash ∈ hashes entries :=
  mem_hashes.2 ⟨_, (List.mem_filter.1 (first_mem h)).1, hash_eq h⟩

theorem mem_arriving :
    g ∈ arriving entries ↔ ofMembers? (withHash entries g.fingerprint.hash) = some g := by
  rw [arriving, List.mem_filterMap]
  constructor
  · rintro ⟨hash, -, h⟩
    rw [hash_eq h, h]
  · intro h
    exact ⟨_, mem_hashes_of_group h, h⟩

theorem mem_collect :
    g ∈ collect entries ↔ ofMembers? (withHash entries g.fingerprint.hash) = some g := by
  rw [(collect_perm entries).mem_iff, mem_arriving]

/-- The hashes of groups are those that two entries have. -/
theorem map_hash_arriving (entries : List (Fingerprint × Location)) :
    (arriving entries).map (·.fingerprint.hash) =
      (hashes entries).filter fun hash => 2 ≤ (withHash entries hash).length := by
  rw [arriving]
  induction hashes entries with
  | nil => rfl
  | cons hash rest ih =>
    rw [List.filterMap_cons, List.filter_cons, ← ofMembers?_isSome]
    cases h : ofMembers? (withHash entries hash) with
    | none => exact ih
    | some g =>
      dsimp only [Option.isSome_some]
      rw [List.map_cons, hash_eq h, ih]
      rfl

theorem nodup_hash_arriving (entries : List (Fingerprint × Location)) :
    ((arriving entries).map (·.fingerprint.hash)).Nodup := by
  rw [map_hash_arriving]
  exact (nodup_hashes entries).filter _

theorem count_hash (entries : List (Fingerprint × Location)) (hash : Bytes) :
    (collect entries).countP (·.fingerprint.hash = hash) =
      if 2 ≤ entries.countP (·.1.hash = hash) then 1 else 0 := by
  have hcount : (arriving entries).countP (·.fingerprint.hash = hash) =
      ((arriving entries).map (·.fingerprint.hash)).count hash := by
    rw [List.count, List.countP_map]
    simp only [Function.comp_def, beq_eq_decide]
  rw [(collect_perm entries).countP_eq, hcount, (nodup_hash_arriving entries).count,
    map_hash_arriving, List.countP_eq_length_filter]
  apply if_congr _ rfl rfl
  rw [List.mem_filter, decide_eq_true_iff]
  constructor
  · exact And.right
  · intro h
    have hsome : (ofMembers? (withHash entries hash)).isSome = true := by
      rw [ofMembers?_isSome]
      exact decide_eq_true h
    obtain ⟨g, hg⟩ := Option.isSome_iff_exists.1 hsome
    exact ⟨mem_hashes_of_group hg, h⟩

/-- Entries are parted by their hashes. A hash of two entries has one group and no other hash has
any; the group has the places of its hash in order and the fingerprint of an entry at the first. -/
structure Parts (entries : List (Fingerprint × Location)) (groups : List DuplicateGroup) :
    Prop where
  once : ∀ hash, groups.countP (·.fingerprint.hash = hash) =
    if 2 ≤ entries.countP (·.1.hash = hash) then 1 else 0
  places : ∀ g ∈ groups,
    g.locations.Perm ((entries.filter (·.1.hash = g.fingerprint.hash)).map (·.2))
  inOrder : ∀ g ∈ groups, g.locations.Pairwise (·.key ≤ ·.key)
  exemplar : ∀ g ∈ groups, (g.fingerprint, g.first) ∈ entries
  byStart : groups.Pairwise (·.start ≤ ·.start)

/-- What is collected parts the entries by their hashes, whatever the entries are. -/
theorem collect_parts (entries : List (Fingerprint × Location)) :
    Parts entries (collect entries) where
  once := count_hash entries
  places g hg := locations_perm (mem_collect.1 hg)
  inOrder g hg := pairwise_locations (mem_collect.1 hg)
  exemplar g hg := (List.mem_filter.1 (first_mem (mem_collect.1 hg))).1
  byStart := by
    rw [collect_eq]
    exact pairwise_mergeSort_of_key le_iff _

/-! ## The order of entries -/

/-- No ties are left to the order of entries: all entries at the first place of a group have its
fingerprint, and no two groups start at one line. -/
structure Settled (entries : List (Fingerprint × Location)) : Prop where
  exemplar : ∀ g ∈ collect entries, ∀ e ∈ entries, e.1.hash = g.fingerprint.hash →
    e.2 = g.first → e.1 = g.fingerprint
  starts : ((collect entries).map start).Nodup

theorem withHash_perm (h : entries.Perm entries') (hash : Bytes) :
    (withHash entries hash).Perm (withHash entries' hash) := h.filter _

theorem hashes_perm (h : entries.Perm entries') : (hashes entries).Perm (hashes entries') := by
  rw [List.perm_ext_iff_of_nodup (nodup_hashes entries) (nodup_hashes entries')]
  intro hash
  rw [mem_hashes, mem_hashes]
  simp only [h.mem_iff]

theorem ofMembers?_withHash_of_perm (hs : Settled entries) (h : entries.Perm entries')
    (hash : Bytes) : ofMembers? (withHash entries' hash) = ofMembers? (withHash entries hash) := by
  cases hg : ofMembers? (withHash entries hash) with
  | none =>
    rw [← Option.not_isSome_iff_eq_none, ofMembers?_isSome] at hg ⊢
    rwa [← (withHash_perm h hash).length_eq]
  | some g =>
    apply ofMembers?_eq_of_perm (withHash_perm h hash) hg
    intro e he hfirst
    obtain ⟨hmem, hhash⟩ := List.mem_filter.1 he
    have hgroup : g ∈ collect entries := by
      rw [mem_collect, hash_eq hg, hg]
    exact hs.exemplar g hgroup e hmem (by rw [hash_eq hg]; exact of_decide_eq_true hhash) hfirst

theorem arriving_perm (hs : Settled entries) (h : entries.Perm entries') :
    (arriving entries).Perm (arriving entries') := by
  have hgroups : arriving entries' =
      (hashes entries').filterMap fun hash => ofMembers? (withHash entries hash) := by
    rw [arriving]
    exact List.filterMap_congr fun hash _ => ofMembers?_withHash_of_perm hs h hash
  rw [hgroups]
  exact (hashes_perm h).filterMap _

theorem collect_eq_of_perm (hs : Settled entries) (h : entries.Perm entries') :
    collect entries' = collect entries := by
  have hperm : (collect entries').Perm (collect entries) :=
    (collect_perm entries').trans ((arriving_perm hs h).symm.trans (collect_perm entries).symm)
  apply hperm.eq_of_pairwise _ (collect_parts entries').byStart (collect_parts entries).byStart
  intro a b ha hb hab hba
  exact List.inj_on_of_nodup_map hs.starts (hperm.mem_iff.1 ha) hb (le_antisymm hab hba)

/-- Of several members at the first location, the group has the fingerprint of the one that came
first. -/
theorem fingerprint_of_ahead {e : Fingerprint × Location} (h : ofMembers? (e :: members) = some g)
    (he : e.2 = g.first) : e.1 = g.fingerprint := by
  have hsorted : sorted (e :: members) = e :: sorted members := by
    apply mergeSort_cons_of_least fun a b => Location.le_iff a.2 b.2
    intro b hb
    rw [he]
    exact first_le h (List.mem_cons_of_mem e hb)
  obtain ⟨-, -, hhead⟩ := ofMembers?_eq_some.1 h
  rw [hsorted, List.head?_cons, Option.some.injEq] at hhead
  rw [hhead]

theorem withHash_cons {e : Fingerprint × Location} (h : e.1.hash = hash) :
    withHash (e :: members) hash = e :: withHash members hash :=
  List.filter_cons_of_pos (decide_eq_true h)

theorem exemplar_of_invariant
    (h : ∀ entries', entries.Perm entries' → collect entries' = collect entries)
    (hg : g ∈ collect entries) {e : Fingerprint × Location} (he : e ∈ entries)
    (hhash : e.1.hash = g.fingerprint.hash) (hfirst : e.2 = g.first) : e.1 = g.fingerprint := by
  rw [← h _ (List.perm_cons_erase he), mem_collect, withHash_cons hhash] at hg
  exact fingerprint_of_ahead hg hfirst

/-- The entries with those of one hash in front. -/
def ahead (entries : List (Fingerprint × Location)) (hash : Bytes) :
    List (Fingerprint × Location) :=
  withHash entries hash ++ entries.filter fun e => ! decide (e.1.hash = hash)

theorem ahead_perm (entries : List (Fingerprint × Location)) (hash : Bytes) :
    entries.Perm (ahead entries hash) :=
  (List.filter_append_perm _ entries).symm

theorem withHash_ahead (entries : List (Fingerprint × Location)) (hash : Bytes) :
    withHash (ahead entries hash) hash = withHash entries hash := by
  rw [ahead, withHash, withHash, List.filter_append, List.filter_filter, List.filter_filter]
  simp

/-- With the entries of its hash in front, a group arrives before all others. -/
theorem arriving_ahead (hg : g ∈ collect entries) :
    ∃ rest, arriving (ahead entries g.fingerprint.hash) = g :: rest := by
  rw [mem_collect] at hg
  have hhashes : ∃ rest, hashes (ahead entries g.fingerprint.hash) = g.fingerprint.hash :: rest := by
    have hmem := first_mem hg
    rw [hashes, ahead]
    cases hsame : withHash entries g.fingerprint.hash with
    | nil => simp [hsame] at hmem
    | cons e members =>
      have he : e ∈ withHash entries g.fingerprint.hash := hsame ▸ List.mem_cons_self
      have hhash : e.1.hash = g.fingerprint.hash := of_decide_eq_true (List.mem_filter.1 he).2
      rw [List.cons_append, ← hhash]
      exact Keyed.keys_group_cons _ e _
  obtain ⟨rest, hrest⟩ := hhashes
  rw [← withHash_ahead] at hg
  rw [arriving, hrest, List.filterMap_cons, hg]
  exact ⟨_, rfl⟩

theorem not_sublist_swap {α : Type} {l : List α} {a b : α} (h : l.Nodup)
    (hab : [a, b].Sublist l) : ¬ [b, a].Sublist l := by
  induction l with
  | nil => cases hab
  | cons c l ih =>
    rw [List.nodup_cons] at h
    intro hba
    have mem_of : ∀ {x y}, [x, y].Sublist l → x ∈ l ∧ y ∈ l := fun hxy =>
      ⟨hxy.subset List.mem_cons_self, hxy.subset (List.mem_cons_of_mem _ List.mem_cons_self)⟩
    cases hab with
    | cons _ hab =>
      cases hba with
      | cons _ hba => exact ih h.2 hab hba
      | cons_cons _ hba => exact h.1 (mem_of hab).2
    | cons_cons _ hab =>
      cases hba with
      | cons _ hba => exact h.1 (mem_of hba).2
      | cons_cons _ hba => exact h.1 (List.singleton_sublist.1 hba)

theorem nodup_hash (entries : List (Fingerprint × Location)) :
    ((collect entries).map (·.fingerprint.hash)).Nodup :=
  ((collect_perm entries).map _).nodup_iff.2 (nodup_hash_arriving entries)

theorem starts_of_invariant
    (h : ∀ entries', entries.Perm entries' → collect entries' = collect entries) :
    ((collect entries).map start).Nodup := by
  rw [List.Nodup, List.pairwise_map, List.pairwise_iff_forall_sublist]
  intro g g' hsub hstart
  have hg : g ∈ collect entries := hsub.subset List.mem_cons_self
  have hg' : g' ∈ collect entries := hsub.subset (List.mem_cons_of_mem g List.mem_cons_self)
  have hne : g ≠ g' := by
    rintro rfl
    exact (List.nodup_iff_sublist.1 (nodup_hash entries).of_map) g hsub
  -- Moved to the front, the entries of the second group bring it before the first.
  have hahead := h _ (ahead_perm entries g'.fingerprint.hash)
  obtain ⟨rest, hrest⟩ := arriving_ahead hg'
  have hmem : g ∈ rest := by
    rw [← hahead, (collect_perm _).mem_iff, hrest, List.mem_cons] at hg
    exact hg.resolve_left hne
  have hswap : [g', g].Sublist (collect entries) := by
    rw [← hahead, collect_eq, hrest]
    apply sublist_mergeSort_of_key_eq le_iff hstart.symm
    exact (List.singleton_sublist.2 hmem).cons_cons g'
  exact not_sublist_swap (nodup_hash entries).of_map hsub hswap

/-- The order of entries does not show exactly if no ties are left to it. -/
theorem collect_eq_of_perm_iff (entries : List (Fingerprint × Location)) :
    (∀ entries', entries.Perm entries' → collect entries' = collect entries) ↔
      Settled entries :=
  ⟨fun h => ⟨fun _ hg _ he hhash hfirst => exemplar_of_invariant h hg he hhash hfirst,
    starts_of_invariant h⟩, fun hs _ h => collect_eq_of_perm hs h⟩

namespace Sample

def entry (hash : UInt8) (excerpt : String) (file : String) (startLine endLine : Nat) :
    Fingerprint × Location :=
  (⟨[hash], excerpt⟩, ⟨file, startLine, endLine, "f"⟩)

/-- A function and its copy. -/
def outer : List (Fingerprint × Location) :=
  [entry 1 "return () => g();" "a.js" 1 9, entry 1 "return () => g();" "b.js" 1 9]

/-- What each of the two returns. -/
def inner : List (Fingerprint × Location) :=
  [entry 2 "g()" "a.js" 1 8, entry 2 "g()" "b.js" 1 8]

/-- Two functions at one place whose bodies differ in a name. -/
def renamed : List (Fingerprint × Location) :=
  [entry 1 "return a;" "a.js" 1 3, entry 1 "return b;" "a.js" 1 3]

def outerGroup : DuplicateGroup :=
  ⟨⟨[1], "return () => g();"⟩, ⟨"a.js", 1, 9, "f"⟩, [⟨"b.js", 1, 9, "f"⟩]⟩

def innerGroup : DuplicateGroup :=
  ⟨⟨[2], "g()"⟩, ⟨"a.js", 1, 8, "f"⟩, [⟨"b.js", 1, 8, "f"⟩]⟩

theorem outerGroup_mem (h : withHash entries [1] = outer) : outerGroup ∈ collect entries := by
  rw [mem_collect, show outerGroup.fingerprint.hash = [1] from rfl, h, ofMembers?,
    List.mergeSort_of_pairwise (by decide +kernel)]
  rfl

theorem innerGroup_mem (h : withHash entries [2] = inner) : innerGroup ∈ collect entries := by
  rw [mem_collect, show innerGroup.fingerprint.hash = [2] from rfl, h, ofMembers?,
    List.mergeSort_of_pairwise (by decide +kernel)]
  rfl

end Sample

/-- Two groups that start at one line stand in the order in which they arrive. -/
theorem collect_eq_pair (h : hashes entries = [g.fingerprint.hash, g'.fingerprint.hash])
    (hg : g ∈ collect entries) (hg' : g' ∈ collect entries) (hstart : g.start = g'.start) :
    collect entries = [g, g'] := by
  rw [mem_collect] at hg hg'
  have harriving : arriving entries = [g, g'] := by
    rw [arriving, h, List.filterMap_cons, hg, List.filterMap_cons, hg', List.filterMap_nil]
  rw [collect_eq, harriving, List.mergeSort_of_pairwise]
  rw [List.pairwise_pair, le_iff, hstart]

/-- In both ties it shows which entry came first. -/
theorem arrival_shows :
    ((Sample.outer ++ Sample.inner).Perm (Sample.inner ++ Sample.outer) ∧
      (collect (Sample.outer ++ Sample.inner)).map (·.fingerprint.hash) = [[1], [2]] ∧
      (collect (Sample.inner ++ Sample.outer)).map (·.fingerprint.hash) = [[2], [1]]) ∧
    (Sample.renamed.Perm Sample.renamed.reverse ∧
      (collect Sample.renamed).map (·.fingerprint.excerpt) = ["return a;"] ∧
      (collect Sample.renamed.reverse).map (·.fingerprint.excerpt) = ["return b;"]) := by
  refine ⟨⟨List.perm_append_comm, ?_, ?_⟩, (List.reverse_perm _).symm, ?_, ?_⟩
  · rw [collect_eq_pair rfl (Sample.outerGroup_mem rfl) (Sample.innerGroup_mem rfl) rfl]
    rfl
  · rw [collect_eq_pair rfl (Sample.innerGroup_mem rfl) (Sample.outerGroup_mem rfl) rfl]
    rfl
  · simp [collect, Keyed.group, Keyed.modify, ofMembers?, Sample.renamed, Sample.entry,
      List.mergeSort, Location.le_iff]
  · simp [collect, Keyed.group, Keyed.modify, ofMembers?, Sample.renamed, Sample.entry,
      List.mergeSort, Location.le_iff]

end DuplicateGroup

end Deadwood
