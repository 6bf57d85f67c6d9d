import Deadwood.Proofs.Files.Logged
import Deadwood.Proofs.Surgery.Sequence
import Mathlib.Data.List.FinRange
import Mathlib.Logic.Function.Basic
import Mathlib.Logic.Relation

/-!
Transactions that overlap. A transaction takes the lock of its file name and reads its file; later
it writes what it has made of that, and gives the lock back. Between the two any other transaction
may go on whose lock has another name. As long as no file goes by two names, what any interleaving
leaves and reports is what the transactions leave and report one after another, in the order in
which they end (`interleavings_serialize`).
-/
namespace Deadwood

namespace Surgery

variable {σ : Type} [Store σ] {g : Grammar} {o : SurgeryOptions}

/-- How far a transaction is: it waits for its lock, it holds what it has read, or it is over. -/
inductive Stage
  | waiting
  | holding (content : Except FileError Bytes)
  | done (outcome : Outcome)

structure State (σ ι : Type) where
  files : σ
  stage : ι → Stage

variable {ι : Type} [DecidableEq ι] {job : ι → String × List Issue} {i j : ι} {start : σ}
  {s s' : State σ ι}

namespace State

def initial (files : σ) : State σ ι := ⟨files, fun _ => .waiting⟩

def set (s : State σ ι) (files : σ) (i : ι) (stage : Stage) : State σ ι :=
  ⟨files, Function.update s.stage i stage⟩

omit [Store σ] in
theorem files_set (files : σ) (i : ι) (stage : Stage) : (s.set files i stage).files = files := rfl

omit [Store σ] in
theorem stage_set_self (files : σ) (i : ι) (stage : Stage) :
    (s.set files i stage).stage i = stage := Function.update_self ..

omit [Store σ] in
theorem stage_set_of_ne (files : σ) (stage : Stage) (h : j ≠ i) :
    (s.set files i stage).stage j = s.stage j := Function.update_of_ne h ..

omit [Store σ] in
theorem stage_set_cases {files : σ} {stage stage' : Stage}
    (h : (s.set files i stage).stage j = stage') :
    j = i ∧ stage = stage' ∨ j ≠ i ∧ s.stage j = stage' := by
  by_cases hji : j = i
  · rw [hji, stage_set_self] at h
    exact .inl ⟨hji, h⟩
  · rw [stage_set_of_ne _ _ hji] at h
    exact .inr ⟨hji, h⟩

end State

/-- A step of one transaction: it reads once no other holds its lock, or it ends. -/
inductive Step (g : Grammar) (o : SurgeryOptions) (job : ι → String × List Issue) :
    State σ ι → State σ ι → Prop
  | read {s : State σ ι} {i : ι} (hwaiting : s.stage i = .waiting)
      (hfree : ∀ j content, s.stage j = .holding content → (job j).1 ≠ (job i).1) :
      Step g o job s (s.set s.files i (.holding (Store.read s.files (.ofString (job i).1))))
  | finish {s : State σ ι} {i : ι} {content : Except FileError Bytes} {r : Run σ Outcome}
      (hholding : s.stage i = .holding content)
      (hr : resume g o (job i).1 (job i).2 content s.files = r) :
      Step g o job s (s.set r.files i (.done r.result))

abbrev Interleaves (g : Grammar) (o : SurgeryOptions) (job : ι → String × List Issue) :
    State σ ι → State σ ι → Prop := Relation.ReflTransGen (Step g o job)

/-- No other transaction is for the file. -/
def Alone (job : ι → String × List Issue) (i : ι) : Prop :=
  ∀ j, Path.ofString (job j).1 = .ofString (job i).1 → j = i

/-- The file holds what a transaction made of what it held at the start, and with that all the names
are gone that the transaction reports. -/
def Lands (g : Grammar) (o : SurgeryOptions) (job : ι → String × List Issue) (start files : σ)
    (i : ι) (names : List String) : Prop :=
  ∃ source language tree plan content, Store.read start (.ofString (job i).1) = .ok source ∧
    Mutation.Gated g o (.ofString (job i).1) (job i).2 source language tree plan content ∧
    names = plan.names ∧ Store.read files (.ofString (job i).1) = .ok content

/-- The transactions that are over did, in that order, what they would have done alone, and those
under way hold what their files still hold. -/
structure Serial (g : Grammar) (o : SurgeryOptions) (job : ι → String × List Issue) (start : σ)
    (s : State σ ι) (order : List ι) : Prop where
  nodup : order.Nodup
  mem_order : ∀ i outcome, s.stage i = .done outcome → i ∈ order
  files_eq : (transactions g o (order.map job) start).files = s.files
  stage_eq : order.map s.stage = (transactions g o (order.map job) start).result.map .done
  read_eq : ∀ i content, s.stage i = .holding content →
    Store.read s.files (.ofString (job i).1) = content
  exclusive : ∀ i j content content', s.stage i = .holding content →
    s.stage j = .holding content' → (job i).1 = (job j).1 → i = j
  untouched : ∀ i, i ∉ order → Alone job i →
    Store.read s.files (.ofString (job i).1) = Store.read start (.ofString (job i).1)
  lands : ∀ i f lines nodes names, s.stage i = .done (.committed f lines nodes names false) →
    Alone job i → Lands g o job start s.files i names

namespace Serial

variable {order : List ι}

omit [DecidableEq ι] in
theorem initial (start : σ) : Serial g o job start (.initial start) [] where
  nodup := List.nodup_nil
  mem_order := by simp [State.initial]
  files_eq := rfl
  stage_eq := rfl
  read_eq := by simp [State.initial]
  exclusive := by simp [State.initial]
  untouched _ _ _ := rfl
  lands := by simp [State.initial]

omit [DecidableEq ι] in
theorem exists_outcome (h : Serial g o job start s order) (hi : i ∈ order) :
    ∃ outcome, s.stage i = .done outcome := by
  have hmem : s.stage i ∈ order.map s.stage := List.mem_map_of_mem hi
  rw [h.stage_eq] at hmem
  obtain ⟨outcome, -, houtcome⟩ := List.mem_map.1 hmem
  exact ⟨outcome, houtcome.symm⟩

omit [Store σ] in
theorem stage_eq_of_not_mem (hi : i ∉ order) (files : σ) (stage : Stage) :
    order.map (s.set files i stage).stage = order.map s.stage :=
  List.map_congr_left fun _ hj => State.stage_set_of_ne _ _ fun h => hi (h ▸ hj)

theorem read (h : Serial g o job start s order) (hwaiting : s.stage i = .waiting)
    (hfree : ∀ j content, s.stage j = .holding content → (job j).1 ≠ (job i).1) :
    Serial g o job start
      (s.set s.files i (.holding (Store.read s.files (.ofString (job i).1)))) order where
  nodup := h.nodup
  mem_order j outcome hj := by
    obtain ⟨-, hstage⟩ | ⟨-, hj⟩ := State.stage_set_cases hj
    · cases hstage
    · exact h.mem_order j outcome hj
  files_eq := h.files_eq
  stage_eq := by
    have hi : i ∉ order := by
      intro hi
      obtain ⟨outcome, hdone⟩ := h.exists_outcome hi
      rw [hwaiting] at hdone
      cases hdone
    rw [stage_eq_of_not_mem hi, h.stage_eq]
  read_eq j content hj := by
    obtain ⟨rfl, hstage⟩ | ⟨-, hj⟩ := State.stage_set_cases hj
    · exact Stage.holding.inj hstage
    · exact h.read_eq j content hj
  exclusive j k content content' hj hk hkey := by
    obtain ⟨rfl, -⟩ | ⟨-, hj'⟩ := State.stage_set_cases hj
    · obtain ⟨rfl, -⟩ | ⟨-, hk'⟩ := State.stage_set_cases hk
      · rfl
      · exact absurd hkey.symm (hfree k content' hk')
    · obtain ⟨rfl, -⟩ | ⟨-, hk'⟩ := State.stage_set_cases hk
      · exact absurd hkey (hfree j content hj')
      · exact h.exclusive j k content content' hj' hk' hkey
  untouched := h.untouched
  lands j f lines nodes names hj halone := by
    obtain ⟨-, hstage⟩ | ⟨-, hj⟩ := State.stage_set_cases hj
    · cases hstage
    · exact h.lands j f lines nodes names hj halone

omit [DecidableEq ι] in
theorem lands_of_resume (hlaw : Store.Lawful σ) {files : σ} {content : Except FileError Bytes}
    (hstart : content = Store.read start (.ofString (job i).1))
    (hread : Store.read files (.ofString (job i).1) = content) {r : Run σ Outcome}
    (hr : resume g o (job i).1 (job i).2 content files = r) {f : String} {lines : Int} {nodes : Nat}
    {names : List String} (hresult : r.result = .committed f lines nodes names false) :
    Lands g o job start r.files i names := by
  rw [← hr] at hresult ⊢
  obtain ⟨text, hv, hwrite, hfiles⟩ := commit_of_resume hresult
  obtain ⟨source, language, tree, plan, hsource, hgated, -, -, hnames⟩ := Mutation.gated_of_commit hv
  rw [hsource] at hstart hread
  refine ⟨source, language, tree, plan, text, hstart.symm, hgated, hnames, ?_⟩
  rw [hfiles]
  exact hlaw.read_write_self _ _ _ _ hread hwrite

/-- What a transaction under way has read is still there, so it ends as if it had run just now. -/
theorem finish (h : Serial g o job start s order) (hlaw : Store.Lawful σ)
    (hnames : ∀ i j, Path.ofString (job i).1 = .ofString (job j).1 → (job i).1 = (job j).1)
    {content : Except FileError Bytes} (hholding : s.stage i = .holding content)
    {r : Run σ Outcome} (hr : resume g o (job i).1 (job i).2 content s.files = r) :
    Serial g o job start (s.set r.files i (.done r.result)) (order ++ [i]) := by
  have hi : i ∉ order := by
    intro hi
    obtain ⟨outcome, hdone⟩ := h.exists_outcome hi
    rw [hholding] at hdone
    cases hdone
  have hrun : transaction g o (job i).1 (job i).2 s.files = r := by
    rw [transaction_eq_resume, h.read_eq i content hholding, hr]
  obtain ⟨hresult, hfiles⟩ := transactions_append (g := g) (o := o) (order.map job) [job i] start
  obtain ⟨hone, hleft⟩ := transactions_singleton (g := g) (o := o) (job i) s.files
  rw [h.files_eq, hone, hrun] at hresult
  rw [h.files_eq, hleft, hrun] at hfiles
  exact
    { nodup := List.nodup_append.2 ⟨h.nodup, (by simp), by
        rintro j hj _ hji rfl
        exact hi (List.mem_singleton.1 hji ▸ hj)⟩
      mem_order := fun j outcome hj => by
        obtain ⟨rfl, -⟩ | ⟨-, hj⟩ := State.stage_set_cases hj
        · exact List.mem_append_right _ (List.mem_singleton_self _)
        · exact List.mem_append_left _ (h.mem_order j outcome hj)
      files_eq := by
        rw [List.map_append, List.map_singleton, hfiles, State.files_set]
      stage_eq := by
        rw [List.map_append, stage_eq_of_not_mem hi, h.stage_eq, List.map_singleton,
          State.stage_set_self, List.map_append, List.map_singleton, hresult, List.map_append,
          List.map_singleton]
      read_eq := fun j content' hj => by
        obtain ⟨-, hstage⟩ | ⟨hji, hj⟩ := State.stage_set_cases hj
        · cases hstage
        · have hpath : Path.ofString (job j).1 ≠ .ofString (job i).1 := fun hpath =>
            hji (h.exclusive j i content' content hj hholding (hnames j i hpath))
          rw [State.files_set, ← hr, read_resume hlaw hpath, h.read_eq j content' hj]
      exclusive := fun j k content content' hj hk hkey => by
        obtain ⟨-, hstage⟩ | ⟨-, hj⟩ := State.stage_set_cases hj
        · cases hstage
        · obtain ⟨-, hstage⟩ | ⟨-, hk⟩ := State.stage_set_cases hk
          · cases hstage
          · exact h.exclusive j k content content' hj hk hkey
      untouched := fun j hj halone => by
        rw [List.mem_append, List.mem_singleton, not_or] at hj
        have hpath : Path.ofString (job j).1 ≠ .ofString (job i).1 := fun hpath =>
          hj.2 (halone i hpath.symm).symm
        rw [State.files_set, ← hr, read_resume hlaw hpath, h.untouched j hj.1 halone]
      lands := fun j f lines nodes names hj halone => by
        obtain ⟨rfl, hstage⟩ | ⟨hji, hj⟩ := State.stage_set_cases hj
        · have hread := h.read_eq j content hholding
          have hstart := h.untouched j hi halone
          rw [hread] at hstart
          exact lands_of_resume hlaw hstart hread hr (Stage.done.inj hstage)
        · obtain ⟨source, language, tree, plan, text, hread, hgated, hnames, hleft⟩ :=
            h.lands j f lines nodes names hj halone
          have hpath : Path.ofString (job j).1 ≠ .ofString (job i).1 := fun hpath =>
            hji (halone i hpath.symm).symm
          refine ⟨source, language, tree, plan, text, hread, hgated, hnames, ?_⟩
          rw [State.files_set, ← hr, read_resume hlaw hpath, hleft] }

/-- Whatever the interleaving, there is an order. -/
theorem exists_order (hlaw : Store.Lawful σ)
    (hnames : ∀ i j, Path.ofString (job i).1 = .ofString (job j).1 → (job i).1 = (job j).1)
    (h : Interleaves g o job (.initial start) s) : ∃ order, Serial g o job start s order := by
  induction h with
  | refl => exact ⟨[], initial start⟩
  | tail _ hstep ih =>
    obtain ⟨order, h⟩ := ih
    cases hstep with
    | read hwaiting hfree => exact ⟨order, h.read hwaiting hfree⟩
    | finish hholding hr => exact ⟨_, h.finish hlaw hnames hholding hr⟩

end Serial

namespace State

def IsOver (s : State σ ι) : Prop := ∀ i, ∃ outcome, s.stage i = .done outcome

/-- Files and outcomes are those of the transactions one after another, in some order. -/
def IsSerial (g : Grammar) (o : SurgeryOptions) (jobs : List (String × List Issue)) (start : σ)
    (s : State σ (Fin jobs.length)) : Prop :=
  ∃ order : List (Fin jobs.length), order.Perm (List.finRange jobs.length) ∧
    (transactions g o (order.map jobs.get) start).files = s.files ∧
    order.map s.stage = (transactions g o (order.map jobs.get) start).result.map .done

end State

/-- If no file goes by two names, the transactions of an operation leave and report in every
interleaving what they do one after another, and each that reports a commit has its edit in its
file. -/
theorem interleavings_serialize (hlaw : Store.Lawful σ) (g : Grammar) (o : SurgeryOptions)
    {issues : List Issue} (hnames : OneName issues) {start : σ}
    {s : State σ (Fin (orderedGroups issues).length)}
    (hrun : Interleaves g o (orderedGroups issues).get (.initial start) s) (hover : s.IsOver) :
    s.IsSerial g o (orderedGroups issues) start ∧
    ∀ i f lines nodes names, s.stage i = .done (.committed f lines nodes names false) →
      Lands g o (orderedGroups issues).get start s.files i names := by
  have hpaths := nodup_paths hnames
  have halone : ∀ i, Alone (orderedGroups issues).get i := by
    intro i j hpath
    have hinj := List.nodup_iff_injective_get.1 hpaths
    have hij := @hinj ⟨j, by simp⟩ ⟨i, by simp⟩ (by simpa using hpath)
    exact Fin.ext (Fin.mk.inj hij)
  obtain ⟨order, h⟩ := Serial.exists_order hlaw (fun i j hpath => by rw [halone j i hpath]) hrun
  refine ⟨⟨order, ?_, h.files_eq, h.stage_eq⟩, fun i f lines nodes names hi =>
    h.lands i f lines nodes names hi (halone i)⟩
  rw [List.perm_ext_iff_of_nodup h.nodup (List.nodup_finRange _)]
  intro i
  obtain ⟨outcome, hdone⟩ := hover i
  simp [h.mem_order i outcome hdone]

/-- Two transactions whose locks have two names can both read before either writes. -/
theorem exists_overlap {j k : String × List Issue} (hnames : j.1 ≠ k.1) (start : σ)
    {c c' : Except FileError Bytes} (hc : Store.read start (.ofString j.1) = c)
    (hc' : Store.read start (.ofString k.1) = c') {r r' : Run σ Outcome}
    (hr : resume g o j.1 j.2 c start = r) (hr' : resume g o k.1 k.2 c' r.files = r') :
    ∃ s : State σ (Fin 2), Interleaves g o [j, k].get (.initial start) s ∧
      s.files = r'.files ∧ s.stage 0 = .done r.result ∧ s.stage 1 = .done r'.result := by
  subst hc hc'
  have hfirst : Step g o [j, k].get (.initial start) _ :=
    .read (i := 0) rfl (by simp [State.initial])
  have hsecond : Step g o [j, k].get ((State.initial start).set start 0
      (.holding (Store.read start (.ofString j.1)))) _ := .read (i := 1) rfl (by
    intro i content hi
    match i with
    | 0 => exact hnames
    | 1 => cases hi)
  have hreads := (Relation.ReflTransGen.single hfirst).tail hsecond
  exact ⟨_, (hreads.tail (.finish (i := 0) rfl hr)).tail (.finish (i := 1) rfl hr'), rfl, rfl, rfl⟩

namespace Overlap

open Deadwood.Sample (node token)

def function (start : Nat) : Node :=
  node "function_declaration" none start (start + 15) [token "function" start (start + 8),
    node "identifier" (some "name") (start + 9) (start + 10) [],
    node "formal_parameters" (some "parameters") (start + 10) (start + 12)
      [token "(" (start + 10) (start + 11), token ")" (start + 11) (start + 12)],
    node "statement_block" (some "body") (start + 13) (start + 15)
      [token "\x7b" (start + 13) (start + 14), token "\x7d" (start + 14) (start + 15)]]

def both : ParsedText :=
  ⟨Utf8.encode "function a() \x7b\x7d\nfunction b() \x7b\x7d\n",
    node "program" none 0 32 [function 0, function 16], by decide +kernel⟩

def onlyA : ParsedText :=
  ⟨Utf8.encode "function a() \x7b\x7d\n", node "program" none 0 16 [function 0], by decide +kernel⟩

def onlyB : ParsedText :=
  ⟨Utf8.encode "function b() \x7b\x7d\n", node "program" none 0 16 [function 0], by decide +kernel⟩

def grammar : Grammar := .knowing [both, onlyA, onlyB]

def options : SurgeryOptions := { conservative := false }

def issue (name file : String) : Issue := .unusedFunction ⟨name, file, 1, .function⟩

theorem parses : grammar .javascript both.source = both.tree ∧
    grammar .javascript onlyA.source = onlyA.tree ∧
    grammar .javascript onlyB.source = onlyB.tree ∧ grammar .javascript [] = Sample.bare := by
  refine ⟨Grammar.knowing_cons, ?_, ?_, ?_⟩
  · exact (Grammar.knowing_cons_of_ne (by decide +kernel)).trans Grammar.knowing_cons
  · exact (Grammar.knowing_cons_of_ne (by decide +kernel)).trans
      ((Grammar.knowing_cons_of_ne (by decide +kernel)).trans Grammar.knowing_cons)
  · exact (Grammar.knowing_cons_of_ne (by decide +kernel)).trans
      ((Grammar.knowing_cons_of_ne (by decide +kernel)).trans
        (Grammar.knowing_cons_of_ne (by decide +kernel)))

theorem targets_eq (name file : String) :
    Mutation.targets options [issue name file] = [(name, .function)] := by
  have heligible : Target.eligible [issue name file] options.operations =
      [⟨name, file, 1, .function⟩] := List.mergeSort_singleton _
  rw [Mutation.targets, Target.ofIssues, heligible]
  rfl

/-- The verdict that removes one function. -/
theorem verdict_eq {path : Path} {name file : String} {text : ParsedText} (e : Edit)
    {content : Bytes} {tree : Node} (hpath : Language.ofPath? path = some .javascript)
    (hvalid : Utf8.isValid text.source = true)
    (hparse : grammar .javascript text.source = text.tree) (hfault : text.tree.hasFault = false)
    (hplan : Plan.ofTree [(name, .function)] text.source text.tree = .ok ⟨[e], 1, [name]⟩)
    (happly : Edit.spliceAll text.source [e] = content) (hcontent : Utf8.isValid content = true)
    (hafter : grammar .javascript content = tree) (hsound : tree.hasFault = false) :
    Mutation.verdict grammar options path [issue name file] (.ok text.source) =
      .ok (.commit content (lineCount text.source - lineCount content) 1 [name]) := by
  have hgated : Mutation.Gated grammar options path [issue name file] text.source .javascript
      text.tree ⟨[e], 1, [name]⟩ content :=
    { language_eq := hpath
      isValid := hvalid
      parsed := (Grammar.parse_eq_ok ..).2 ⟨hparse, hfault⟩
      planned := by rw [targets_eq, hplan]
      edits_ne_nil := by simp
      applied := by
        rw [Edit.apply, Edit.merge, List.mergeSort_singleton, ← happly]
        rfl
      isValid_content := hcontent
      validated := fun _ => ⟨tree, (Grammar.parse_eq_ok ..).2 ⟨hafter, hsound⟩⟩
      moderate := fun h => by cases h }
  exact Mutation.verdict_of_gated hgated (by simp [targets_eq])

/-- The four ways to take one of the functions out. -/
theorem verdicts (path : Path) (hpath : Language.ofPath? path = some .javascript) (file : String) :
    Mutation.verdict grammar options path [issue "a" file] (.ok both.source) =
      .ok (.commit onlyB.source 1 1 ["a"]) ∧
    Mutation.verdict grammar options path [issue "b" file] (.ok both.source) =
      .ok (.commit onlyA.source 1 1 ["b"]) ∧
    Mutation.verdict grammar options path [issue "a" file] (.ok onlyA.source) =
      .ok (.commit [] 1 1 ["a"]) ∧
    Mutation.verdict grammar options path [issue "b" file] (.ok onlyB.source) =
      .ok (.commit [] 1 1 ["b"]) := by
  obtain ⟨hboth, ha, hb, hnone⟩ := parses
  refine ⟨?_, ?_, ?_, ?_⟩
  · exact verdict_eq ⟨0, 16, []⟩ hpath (Utf8.isValid_encode _) hboth (by decide) (by decide +kernel)
      (by decide +kernel) (Utf8.isValid_encode _) hb (by decide)
  · exact verdict_eq ⟨16, 32, []⟩ hpath (Utf8.isValid_encode _) hboth (by decide) (by decide +kernel)
      (by decide +kernel) (Utf8.isValid_encode _) ha (by decide)
  · exact verdict_eq ⟨0, 16, []⟩ hpath (Utf8.isValid_encode _) ha (by decide) (by decide +kernel)
      (by decide +kernel) rfl hnone rfl
  · exact verdict_eq ⟨0, 16, []⟩ hpath (Utf8.isValid_encode _) hb (by decide) (by decide +kernel)
      (by decide +kernel) rfl hnone rfl

/-- Each function is unused in a file of its own. -/
def apart : List Issue := [issue "a" "/p/a.js", issue "b" "/p/b.js"]

def apartFiles : Memory :=
  { files := [(⟨1, ["p", "a.js"]⟩, both.source), (⟨1, ["p", "b.js"]⟩, both.source)] }

theorem groups_apart : orderedGroups apart =
    [("/p/a.js", [issue "a" "/p/a.js"]), ("/p/b.js", [issue "b" "/p/b.js"])] := by
  have hgroups : Target.byFile apart =
      [("/p/a.js", [issue "a" "/p/a.js"]), ("/p/b.js", [issue "b" "/p/b.js"])] := by decide +kernel
  rw [orderedGroups, hgroups]
  exact List.mergeSort_of_pairwise (by decide +kernel)

/-- The same file, by two names. -/
def together : List Issue := [issue "b" "/p//a.js", issue "a" "/p/a.js"]

def path : Path := ⟨1, ["p", "a.js"]⟩

def togetherFiles : Memory := { files := [(path, both.source)] }

theorem groups_together : orderedGroups together =
    [("/p//a.js", [issue "b" "/p//a.js"]), ("/p/a.js", [issue "a" "/p/a.js"])] := by
  have hgroups : Target.byFile together =
      [("/p//a.js", [issue "b" "/p//a.js"]), ("/p/a.js", [issue "a" "/p/a.js"])] := by
    decide +kernel
  rw [orderedGroups, hgroups]
  exact List.mergeSort_of_pairwise (by decide +kernel)

theorem read_together : Store.read togetherFiles path = .ok both.source := by decide +kernel

theorem write_together (text : Bytes) : (Store.write togetherFiles path text).1 = .ok () := rfl

theorem write_again (text text' : Bytes) :
    (Store.write (Store.write togetherFiles path text).2 path text').1 = .ok () := rfl

/-- One after the other, the two take out both functions. -/
theorem read_transactions {first second name name' : String} {text : Bytes}
    (hfirst : Path.ofString first = path) (hsecond : Path.ofString second = path)
    (hv : Mutation.verdict grammar options path [issue name first] (.ok both.source) =
      .ok (.commit text 1 1 [name]))
    (hv' : Mutation.verdict grammar options path [issue name' second] (.ok text) =
      .ok (.commit [] 1 1 [name'])) :
    (transactions grammar options [(first, [issue name first]), (second, [issue name' second])]
      togetherFiles).files.read path = .ok [] := by
  have hread : Store.read (Store.write togetherFiles path text).2 path = .ok text :=
    Memory.lawful.read_write_self _ _ _ _ read_together (write_together text)
  have hone := (transaction_of_commit hfirst (read_together ▸ hv) rfl (write_together text)).2
  have htwo := (transaction_of_commit hsecond (hread ▸ hv') rfl (write_again text [])).2
  simp only [transactions, hone, htwo]
  exact Memory.lawful.read_write_self _ _ _ _ hread (write_again text [])

end Overlap

/-- Two transactions on files of their own read before either writes; each edit is in its file. -/
theorem interleavings_serialize_sample :
    ∃ (s : State Memory (Fin (orderedGroups Overlap.apart).length)) (i : _),
      Interleaves Overlap.grammar Overlap.options (orderedGroups Overlap.apart).get
        (.initial Overlap.apartFiles) s ∧ s.IsOver ∧
      s.IsSerial Overlap.grammar Overlap.options (orderedGroups Overlap.apart) Overlap.apartFiles ∧
      Lands Overlap.grammar Overlap.options (orderedGroups Overlap.apart).get Overlap.apartFiles
        s.files i ["a"] := by
  have hone : OneName Overlap.apart := by
    unfold OneName
    decide +kernel
  have hs : ∃ (s : State Memory (Fin (orderedGroups Overlap.apart).length)) (i : _),
      Interleaves Overlap.grammar Overlap.options (orderedGroups Overlap.apart).get
        (.initial Overlap.apartFiles) s ∧ s.IsOver ∧
      s.stage i = .done (.committed (Overlap.path.toString) 1 1 ["a"] false) := by
    have hpath : Path.ofString "/p/a.js" = Overlap.path := by decide +kernel
    obtain ⟨ha, -⟩ := Overlap.verdicts Overlap.path (by decide +kernel) "/p/a.js"
    have hread : Store.read Overlap.apartFiles Overlap.path = .ok Overlap.both.source := by
      decide +kernel
    have hfirst := (resume_of_commit hpath ha rfl (rfl : (Store.write Overlap.apartFiles _ _).1 = _)).1
    rw [Overlap.groups_apart]
    obtain ⟨s, hrun, -, hstage, hstage'⟩ := exists_overlap
      (j := ("/p/a.js", [Overlap.issue "a" "/p/a.js"]))
      (k := ("/p/b.js", [Overlap.issue "b" "/p/b.js"])) (by decide) Overlap.apartFiles
      (hpath ▸ hread) rfl rfl rfl
    refine ⟨s, 0, hrun, fun i => ?_, hstage.trans (congrArg _ hfirst)⟩
    match i with
    | 0 => exact ⟨_, hstage⟩
    | 1 => exact ⟨_, hstage'⟩
  obtain ⟨s, i, hrun, hover, hstage⟩ := hs
  obtain ⟨hserial, hlands⟩ :=
    interleavings_serialize Memory.lawful Overlap.grammar Overlap.options hone hrun hover
  exact ⟨s, i, hrun, hover, hserial, hlands i _ _ _ _ hstage⟩

/-- Under two names for one file, the second write takes back what the first transaction removed.
Both report a commit, and no order of the two leaves such a file. -/
theorem overlap_loses_removal :
    Overlap.grammar.Sound ∧ ∃ s : State Memory (Fin (orderedGroups Overlap.together).length),
      Interleaves Overlap.grammar Overlap.options (orderedGroups Overlap.together).get
        (.initial Overlap.togetherFiles) s ∧
      (List.finRange _).map s.stage = [.done (.committed "/p/a.js" 1 1 ["b"] false),
        .done (.committed "/p/a.js" 1 1 ["a"] false)] ∧
      s.files.read Overlap.path = .ok Overlap.onlyB.source ∧
      ∀ order : List (Fin (orderedGroups Overlap.together).length),
        order.Perm (List.finRange _) →
        (transactions Overlap.grammar Overlap.options (order.map (orderedGroups Overlap.together).get)
          Overlap.togetherFiles).files.read Overlap.path = .ok [] := by
  refine ⟨Grammar.sound_knowing _, ?_⟩
  rw [Overlap.groups_together]
  have hlanguage : Language.ofPath? Overlap.path = some .javascript := by decide +kernel
  have hfirst : Path.ofString "/p//a.js" = Overlap.path := by decide +kernel
  have hsecond : Path.ofString "/p/a.js" = Overlap.path := by decide +kernel
  obtain ⟨-, hb, -, hbLast⟩ := Overlap.verdicts Overlap.path hlanguage "/p//a.js"
  obtain ⟨ha, -, haLast, -⟩ := Overlap.verdicts Overlap.path hlanguage "/p/a.js"
  have htext : Overlap.path.toString = "/p/a.js" := by decide +kernel
  obtain ⟨r, hr⟩ : ∃ r, resume Overlap.grammar Overlap.options "/p//a.js"
      [Overlap.issue "b" "/p//a.js"] (.ok Overlap.both.source) Overlap.togetherFiles = r := ⟨_, rfl⟩
  obtain ⟨hresult, hfiles⟩ := resume_of_commit hfirst hb rfl (Overlap.write_together _)
  rw [hr] at hresult hfiles
  obtain ⟨r', hr'⟩ : ∃ r', resume Overlap.grammar Overlap.options "/p/a.js"
      [Overlap.issue "a" "/p/a.js"] (.ok Overlap.both.source) r.files = r' := ⟨_, rfl⟩
  have hagain := Overlap.write_again Overlap.onlyA.source Overlap.onlyB.source
  rw [← hfiles] at hagain
  obtain ⟨hresult', hfiles'⟩ := resume_of_commit hsecond ha rfl hagain
  rw [hr'] at hresult' hfiles'
  obtain ⟨s, hrun, hleft, hstage, hstage'⟩ := exists_overlap
    (j := ("/p//a.js", [Overlap.issue "b" "/p//a.js"]))
    (k := ("/p/a.js", [Overlap.issue "a" "/p/a.js"])) (by decide) Overlap.togetherFiles
    (hfirst ▸ Overlap.read_together) (hsecond ▸ Overlap.read_together) hr hr'
  refine ⟨s, hrun, ?_, ?_, fun order horder => ?_⟩
  · have hstages : (List.finRange 2).map s.stage = [s.stage 0, s.stage 1] := rfl
    rw [hresult, htext] at hstage
    rw [hresult', htext] at hstage'
    exact hstages.trans (by rw [hstage, hstage'])
  · have hread : Store.read r.files Overlap.path = .ok Overlap.onlyA.source := by
      rw [hfiles]
      exact Memory.lawful.read_write_self _ _ _ _ Overlap.read_together (Overlap.write_together _)
    rw [hleft, hfiles']
    exact Memory.lawful.read_write_self _ _ _ _ hread hagain
  · have htwo : ∀ x y : Fin 2, [x, y].Perm (List.finRange 2) → x = 0 ∧ y = 1 ∨ x = 1 ∧ y = 0 := by
      decide
    obtain ⟨x, y, rfl⟩ := List.length_eq_two.1 horder.length_eq
    rcases htwo x y horder with ⟨rfl, rfl⟩ | ⟨rfl, rfl⟩
    · exact Overlap.read_transactions hfirst hsecond hb haLast
    · exact Overlap.read_transactions hsecond hfirst ha hbLast

end Surgery

end Deadwood
