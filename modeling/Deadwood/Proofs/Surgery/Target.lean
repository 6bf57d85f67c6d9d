import Deadwood.Proofs.Keyed
import Deadwood.Proofs.Sorting
import Deadwood.Surgery.Target
import Mathlib.Data.List.Infix
import Mathlib.Data.Prod.Lex
import Mathlib.Data.String.Basic

/-!
Which names are taken from a file. The symbols asked for are put in order, of each name the first
counts, and the budget cuts the list of these firsts (`ofIssues_eq_take`): a name that comes again
costs nothing, and a greater budget only adds names at the end.
-/
namespace Deadwood.Target

variable {budget : Nat} {taken : Keyed String SymbolKind} {issues issues' : List Issue}
  {operations : List Operation} {s : Symbol}

/-! ## Order -/

/-- Line and name, in this order. -/
def key (s : Symbol) : ℕ ×ₗ String := toLex (s.line, s.name)

theorem symbolLe_iff (a b : Symbol) : symbolLe a b = true ↔ key a ≤ key b :=
  isLE_compare_iff (key a) (key b)

/-- The symbols that the operations ask for, as their issues come. -/
def asked (issues : List Issue) (operations : List Operation) : List Symbol :=
  (issues.filter (wanted operations)).filterMap Issue.unusedSymbol?

theorem mem_asked : s ∈ asked issues operations ↔
    ∃ i ∈ issues, i.unusedSymbol? = some s ∧ ∃ o ∈ operations, kind? o = some i.kind := by
  simp only [asked, wanted, List.mem_filterMap, List.mem_filter, List.contains_iff_mem]
  grind

theorem eligible_perm (issues : List Issue) (operations : List Operation) :
    (eligible issues operations).Perm (asked issues operations) :=
  List.mergeSort_perm _ _

theorem pairwise_eligible (issues : List Issue) (operations : List Operation) :
    (eligible issues operations).Pairwise (key · ≤ key ·) :=
  pairwise_mergeSort_of_key symbolLe_iff _

/-- Symbols with one line and one name stay in the order of their issues. -/
theorem filter_eligible (issues : List Issue) (operations : List Operation) (k : ℕ ×ₗ String) :
    (eligible issues operations).filter (key · = k) =
      (asked issues operations).filter (key · = k) :=
  filter_mergeSort_of_key symbolLe_iff k _

theorem asked_perm (h : issues.Perm issues') :
    (asked issues operations).Perm (asked issues' operations) :=
  (h.filter _).filterMap _

/-! ## The first of each name -/

def firsts : List Symbol → Keyed String SymbolKind
  | [] => []
  | s :: rest => (s.name, s.kind) :: (firsts rest).filter (·.1 ≠ s.name)

theorem keys_firsts_cons (s : Symbol) (rest : List Symbol) :
    (firsts (s :: rest)).keys =
      s.name :: (firsts rest).keys.filter fun name => ! name == s.name := by
  rw [firsts, Keyed.keys, List.map_cons, Keyed.keys, List.filter_map]
  simp only [Function.comp_def, decide_not, beq_eq_decide]

theorem filter_keys_firsts (p : String → Bool) (l : List Symbol) :
    (firsts l).keys.filter p = ((l.map (·.name)).filter p).eraseDups := by
  induction l generalizing p with
  | nil => rfl
  | cons s rest ih =>
    rw [keys_firsts_cons, List.map_cons]
    by_cases hp : p s.name = true
    · rw [List.filter_cons_of_pos hp, List.filter_cons_of_pos hp, List.eraseDups_cons,
        List.filter_filter, List.filter_filter, ih]
      simp only [Bool.and_comm]
    · rw [List.filter_cons_of_neg hp, List.filter_cons_of_neg hp, List.filter_filter, ← ih]
      -- What is left out for its name is left out by the test as well.
      refine List.filter_congr fun name _ => ?_
      by_cases hname : name = s.name
      · simp [hname, hp]
      · simp [hname]

theorem keys_firsts (l : List Symbol) : (firsts l).keys = (l.map (·.name)).eraseDups := by
  simpa using filter_keys_firsts (fun _ => true) l

theorem nodup_keys_firsts (l : List Symbol) : (firsts l).keys.Nodup := by
  induction l with
  | nil => exact List.nodup_nil
  | cons s rest ih =>
    rw [keys_firsts_cons, List.nodup_cons]
    exact ⟨by simp, ih.filter _⟩

theorem get?_firsts (l : List Symbol) (name : String) :
    (firsts l).get? name = (l.find? (·.name = name)).map (·.kind) := by
  induction l with
  | nil => rfl
  | cons s rest ih =>
    have hrest : firsts (s :: rest) = (s.name, s.kind) :: (firsts rest).erase s.name := rfl
    rw [hrest, Keyed.get?_cons, Keyed.get?_erase, ih, List.find?_cons]
    by_cases hname : s.name = name
    · simp [hname]
    · simp [hname, Ne.symm hname]

/-- What is taken are the firsts of the names that are new, as far as the budget goes. -/
theorem take_eq (budget : Nat) (taken : Keyed String SymbolKind) (l : List Symbol) :
    take budget taken l =
      taken ++ ((firsts l).filter (·.1 ∉ taken.keys)).take (budget - taken.length) := by
  induction l generalizing taken with
  | nil => simp [take, firsts]
  | cons s rest ih =>
    rw [take]
    split
    · next hfull => simp [Nat.sub_eq_zero_of_le hfull]
    · next hroom =>
      rw [ih, firsts]
      by_cases hmem : s.name ∈ taken.keys
      · have hagain : ((firsts rest).filter (·.1 ≠ s.name)).filter (·.1 ∉ taken.keys) =
            (firsts rest).filter (·.1 ∉ taken.keys) := by
          rw [List.filter_filter]
          exact List.filter_congr fun p _ => by grind
        rw [Keyed.setDefault_of_mem hmem, List.filter_cons_of_neg (by simpa using hmem), hagain]
      · have hnew : ((firsts rest).filter (·.1 ≠ s.name)).filter (·.1 ∉ taken.keys) =
            (firsts rest).filter (·.1 ∉ Keyed.keys (taken ++ [(s.name, s.kind)])) := by
          rw [List.filter_filter]
          exact List.filter_congr fun p _ => by grind [Keyed.keys]
        rw [Keyed.setDefault_of_not_mem hmem, List.filter_cons_of_pos (by simpa using hmem), hnew,
          List.length_append, List.length_singleton, List.append_assoc,
          show budget - taken.length = budget - (taken.length + 1) + 1 by omega,
          List.take_succ_cons, List.singleton_append]

theorem ofIssues_eq_take (issues : List Issue) (budget : Nat) (operations : List Operation) :
    ofIssues issues budget operations = (firsts (eligible issues operations)).take budget := by
  rw [ofIssues, take_eq]
  simp [Keyed.keys]

/-- Symbols that no line and name tie are put in one order, however their issues come. -/
theorem eligible_eq_of_perm (h : issues.Perm issues')
    (hkeys : ((asked issues operations).map key).Nodup) :
    eligible issues' operations = eligible issues operations := by
  refine (((eligible_perm _ _).trans (asked_perm h.symm)).trans
    (eligible_perm _ _).symm).eq_of_pairwise (fun a b ha hb hab hba => ?_)
    (pairwise_eligible _ _) (pairwise_eligible _ _)
  have hb' : b ∈ asked issues operations := (eligible_perm _ _).mem_iff.1 hb
  have ha' : a ∈ asked issues operations :=
    (asked_perm h).mem_iff.2 ((eligible_perm _ _).mem_iff.1 ha)
  exact List.inj_on_of_nodup_map hkeys ha' hb' (le_antisymm hab hba)

/-- The symbols of the issues asked for are put in order, stably; the targets are the first names
that differ, as many as the budget allows, each with the kind of its first symbol. A greater budget
adds names at the end, and the order of the issues shows only in symbols with one line and one
name. -/
theorem budget_takes_firsts (issues : List Issue) (operations : List Operation) {b c : Nat}
    (hbc : b ≤ c) :
    let ordered := eligible issues operations
    let targets := ofIssues issues b operations
    (∀ s, s ∈ asked issues operations ↔
      ∃ i ∈ issues, i.unusedSymbol? = some s ∧ ∃ o ∈ operations, kind? o = some i.kind) ∧
    (ordered.Perm (asked issues operations) ∧ ordered.Pairwise (key · ≤ key ·) ∧
      ∀ k, ordered.filter (key · = k) = (asked issues operations).filter (key · = k)) ∧
    targets.keys = (ordered.map (·.name)).eraseDups.take b ∧
    (∀ name ∈ targets.keys,
      targets.get? name = (ordered.find? (·.name = name)).map (·.kind)) ∧
    targets <+: ofIssues issues c operations ∧
    (((asked issues operations).map key).Nodup →
      ∀ issues', issues.Perm issues' → ofIssues issues' b operations = targets) := by
  intro ordered targets
  have htargets : targets = (firsts ordered).take b := ofIssues_eq_take issues b operations
  refine ⟨fun _ => mem_asked, ⟨eligible_perm .., pairwise_eligible .., filter_eligible _ _⟩,
    ?_, ?_, ?_, ?_⟩
  · rw [htargets, ← keys_firsts, Keyed.keys, Keyed.keys, List.map_take]
  · intro name hname
    obtain ⟨p, hp, rfl⟩ := List.mem_map.1 hname
    rw [htargets] at hp
    have hcut : (Keyed.keys ((firsts ordered).take b)).Sublist (firsts ordered).keys :=
      (List.take_sublist b _).map _
    rw [← get?_firsts, htargets, Keyed.get?_eq_some_of_mem ((nodup_keys_firsts _).sublist hcut) hp,
      Keyed.get?_eq_some_of_mem (nodup_keys_firsts _) (List.mem_of_mem_take hp)]
  · rw [htargets, ofIssues_eq_take]
    exact List.take_isPrefix_take.2 (.inl hbc)
  · intro hkeys issues' hperm
    rw [htargets, ofIssues_eq_take, eligible_eq_of_perm hperm hkeys]

namespace Mixed

def removals : List Operation := [.unusedFunctions, .unusedImports]

/-- The name `a` is imported, and defined again before the other names. -/
def listed : List Issue :=
  [.unusedImport ⟨"a", "a.js", 1, .importBinding⟩, .unusedFunction ⟨"a", "a.js", 2, .function⟩,
    .unusedFunction ⟨"b", "a.js", 2, .function⟩, .unusedFunction ⟨"c", "a.js", 9, .method⟩]

theorem eligible_listed : eligible listed removals = asked listed removals :=
  List.mergeSort_of_pairwise (by decide +kernel)

end Mixed

open Mixed in
theorem budget_takes_firsts_sample :
    (ofIssues listed 2 removals).keys = ["a", "b"] ∧
    (ofIssues listed 2 removals).get? "a" = some .importBinding ∧
    ofIssues listed 2 removals <+: ofIssues listed 3 removals ∧
    listed.Perm listed.reverse ∧
    ofIssues listed.reverse 2 removals = ofIssues listed 2 removals := by
  obtain ⟨-, -, hkeys, hkinds, hcut, hsame⟩ :=
    budget_takes_firsts listed removals (by decide : 2 ≤ 3)
  have hnames : (ofIssues listed 2 removals).keys = ["a", "b"] := by
    rw [hkeys, eligible_listed]
    decide +kernel
  refine ⟨hnames, ?_, hcut, (List.reverse_perm _).symm, hsame ?_ _ (List.reverse_perm _).symm⟩
  · rw [hkinds "a" (by rw [hnames]; decide), eligible_listed]
    decide +kernel
  · decide +kernel

end Deadwood.Target
