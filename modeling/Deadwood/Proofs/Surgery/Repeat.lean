import Deadwood.Proofs.Removal.Omission
import Deadwood.Proofs.Surgery.Transaction

/-!
A mutation after a mutation. When a run has committed, a second run with the same issues finds
nothing to do exactly if the tree of the new text has nothing to contribute
(`second_run_is_noOp_iff`). The first run can leave a target behind, but only below a part that it
wrote anew (`second_run_can_commit`).
-/
namespace Deadwood.Mutation

section Again

variable {g : Grammar} {o : SurgeryOptions} {path : Path} {issues : List Issue}
  {language : Language} {source content : Bytes} {files : Memory}

theorem targets_ne_nil_of_commit {read : Except FileError Bytes} {lines : Int} {nodes : Nat}
    {names : List String}
    (h : verdict g o path issues read = .ok (.commit content lines nodes names)) :
    targets o issues ≠ [] := by
  intro hnil
  unfold verdict at h
  cases hload : load g path read with
  | error e => simp [hload] at h
  | ok loaded => simp [hload, verdictOf, hnil] at h

theorem verdictOf_leave_iff {file : SourceFile} (hne : targets o issues ≠ []) :
    verdictOf g o issues language file = .ok .leave ↔
      ∃ plan, Plan.ofTree (targets o issues) file.source file.tree = .ok plan ∧ plan.edits = [] := by
  unfold verdictOf
  dsimp only
  rw [if_neg (by simpa using hne)]
  cases hplan : Plan.ofTree (targets o issues) file.source file.tree with
  | error fault => simp
  | ok plan =>
    by_cases hempty : plan.edits = []
    · simp [hempty]
    · cases hgates : gates g o language file.source plan with
      | error r => simp [hempty, hgates]
      | ok content => simp [hempty, hgates]

/-- A text is left alone exactly if it parses and no place of its tree has a change. -/
theorem verdict_leave_iff (hlanguage : Language.ofPath? path = some language)
    (hvalid : Utf8.isValid content = true) (hne : targets o issues ≠ []) :
    verdict g o path issues (.ok content) = .ok .leave ↔
      ∃ tree, g.parse language content = .ok tree ∧
        ∀ p ∈ Place.preorder tree, Plan.change (targets o issues) content p = .ok {} := by
  unfold verdict
  rw [load_of_parse hlanguage hvalid]
  cases hparse : g.parse language content with
  | error e => simp [Except.map]
  | ok tree =>
    simp only [Except.map, Except.ok.injEq, exists_eq_left']
    rw [verdictOf_leave_iff hne, Plan.exists_ofTree_empty_iff]

section Report

variable {σ : Type} [Store σ] {files : σ}

theorem run_of_error {fault : Utf8.Fault}
    (hv : verdict g o path issues (Store.read files path) = .error fault) :
    (run g o path issues files).result = .error (.rebuild fault) := by
  unfold run
  rw [hv]

/-- Where writes succeed, a run reports that there is nothing to do exactly if that is its
verdict. -/
theorem noOp_iff_leave (hwrite : ∀ content, (Store.write files path content).1 = .ok ()) :
    (run g o path issues files).result = .ok (.noOp path.toString) ↔
      verdict g o path issues (Store.read files path) = .ok .leave := by
  cases hv : verdict g o path issues (Store.read files path) with
  | error fault =>
    rw [run_of_error hv]
    simp
  | ok v =>
    rw [result_of_verdict hv hwrite]
    cases v with
    | leave => simp [outcome]
    | skip | reject | commit => simp [outcome]

end Report

/-- After a commit a second run has nothing to do exactly if the new text parses and no place of
its tree has a change. What the first run left out of its plan went with a deletion or stands below
a part that was written anew. -/
theorem second_run_is_noOp_iff (hg : g.Sound) (hwrite : path ∉ files.unwritable) {file : String}
    {lines : Int} {nodes : Nat} {names : List String}
    (hrun : (run g o path issues files).result =
      .ok (.committed file lines nodes names false)) :
    ∃ source language tree plan content, files.read path = .ok source ∧
      Gated g o path issues source language tree plan content ∧
      ((run g o path issues (run g o path issues files).files).result =
          .ok (.noOp path.toString) ↔
        ∃ tree', g.parse language content = .ok tree' ∧
          ∀ p ∈ Place.preorder tree', Plan.change (targets o issues) content p = .ok {}) ∧
      ((run g o path issues (run g o path issues files).files).result =
          .ok (.noOp path.toString) →
        (run g o path issues (run g o path issues files).files).files =
          (run g o path issues files).files) ∧
      ∀ p ∈ Place.preorder tree,
        (∃ c, Plan.change (targets o issues) source p = .ok c ∧ c.edits ⊆ plan.edits) ∨
        (∃ e ∈ plan.edits, e.isDeletion = true ∧ e.start ≤ p.node.start ∧
          p.node.stop ≤ e.stop) ∨
        ∃ r, Plan.IsRewritten (targets o issues) source tree plan r ∧
          r.address <:+ p.address ∧ r.address ≠ p.address := by
  obtain ⟨content, hv, -, -, hfiles⟩ := commit_of_run hrun
  obtain ⟨source, language, tree, plan, hread, hgated, -⟩ := gated_of_commit hv
  have hstored : (run g o path issues files).files =
      { files.put path content with writes := files.writes ++ [path] } :=
    (hfiles rfl).trans (congrArg Prod.snd (Memory.write_eq hwrite content))
  have hok : ∀ content, (Store.write (run g o path issues files).files path content).1 = .ok () := by
    intro content
    rw [hstored]
    exact congrArg Prod.fst (Memory.write_eq (by exact hwrite) content)
  have hread' : Store.read (run g o path issues files).files path = .ok content := by
    rw [hstored]
    exact (Memory.read_put (Memory.not_mem_unreadable hread) path _).trans (if_pos rfl)
  have hwell := (hg language source tree hgated.isValid hgated.parsed).1
  refine ⟨source, language, tree, plan, content, hread, hgated, ?_, fun hnoOp => ?_, fun p hp =>
    Plan.recorded_or_below hwell hgated.planned hp⟩
  · rw [noOp_iff_leave hok, hread']
    exact verdict_leave_iff hgated.language_eq hgated.isValid_content (targets_ne_nil_of_commit hv)
  · refine files_of_run hok ?_
    rw [hnoOp]
    simp

end Again

/-- The sample's run, and a second one that finds nothing. -/
theorem second_run_is_noOp_sample :
    Sample.grammar.Sound ∧ Sample.path ∉ Sample.files.unwritable ∧
    (run Sample.grammar Sample.options Sample.path Sample.issues Sample.files).result =
      .ok (.committed "main.js" 2 2 ["a", "f"] false) ∧
    (run Sample.grammar Sample.options Sample.path Sample.issues
      (run Sample.grammar Sample.options Sample.path Sample.issues Sample.files).files).result =
        .ok (.noOp "main.js") := by
  have hwrite : Sample.path ∉ Sample.files.unwritable := by decide
  refine ⟨Sample.sound, hwrite, Sample.result_eq, ?_⟩
  obtain ⟨source, language, tree, plan, content, hread, hgated, hnoOp, -⟩ :=
    second_run_is_noOp_iff Sample.sound hwrite Sample.result_eq
  obtain rfl : Sample.source = source := Except.ok.inj <|
    (show Sample.files.read Sample.path = .ok Sample.source by decide +kernel).symm.trans hread
  obtain rfl : Sample.tree = tree := ((Grammar.parse_eq_ok ..).1 hgated.parsed).1
  obtain rfl : Sample.plan = plan := Except.ok.inj <|
    (Sample.targets_eq ▸ Sample.ofTree_eq).symm.trans hgated.planned
  obtain rfl : Sample.edited = content := Except.ok.inj (Sample.apply_eq.symm.trans hgated.applied)
  refine hnoOp.2 ⟨Sample.bare, (Grammar.parse_eq_ok ..).2 ⟨if_neg (by decide +kernel), rfl⟩, ?_⟩
  intro p hp
  obtain rfl : p = Place.root Sample.bare := List.mem_singleton.1 hp
  rfl

namespace Nested

open Deadwood.Sample (node token bare)

/-- Two functions in one declaration, the second with a function of its own. -/
def source : Bytes := Utf8.encode
  "let a = () => 1, b = () => \x7b\n  function c() \x7b\x7d\n\x7d;\n"

/-- The declaration is written anew, with what stays of it as it was. -/
def between : Bytes := Utf8.encode "let b = () => \x7b\n  function c() \x7b\x7d\n\x7d;\n"

def last : Bytes := Utf8.encode "let b = () => \x7b\n\x7d;\n"

def parameters (start : Nat) : Node :=
  node "formal_parameters" "parameters" start (start + 2)
    [token "(" start (start + 1), token ")" (start + 1) (start + 2)]

def first : Node :=
  node "variable_declarator" none 4 15 [node "identifier" "name" 4 5 [], token "=" 6 7,
    node "arrow_function" "value" 8 15 [parameters 8, token "=>" 11 13,
      node "number" "body" 14 15 []]]

/-- The second function, which starts earlier once the first is gone. -/
def second (start : Nat) : Node :=
  node "variable_declarator" none start (start + 31)
    [node "identifier" "name" start (start + 1) [], token "=" (start + 2) (start + 3),
      node "arrow_function" "value" (start + 4) (start + 31) [parameters (start + 4),
        token "=>" (start + 7) (start + 9),
        node "statement_block" "body" (start + 10) (start + 31)
          [token "\x7b" (start + 10) (start + 11),
            node "function_declaration" none (start + 14) (start + 29)
              [token "function" (start + 14) (start + 22),
                node "identifier" "name" (start + 23) (start + 24) [], parameters (start + 24),
                node "statement_block" "body" (start + 27) (start + 29)
                  [token "\x7b" (start + 27) (start + 28), token "\x7d" (start + 28) (start + 29)]],
            token "\x7d" (start + 30) (start + 31)]]]

def tree : Node :=
  node "program" none 0 50 [node "lexical_declaration" none 0 49 [token "let" 0 3, first,
    token "," 15 16, second 17, token ";" 48 49]]

def treeBetween : Node :=
  node "program" none 0 37 [node "lexical_declaration" none 0 36 [token "let" 0 3, second 4,
    token ";" 35 36]]

def text : ParsedText := ⟨source, tree, by decide +kernel⟩

def textBetween : ParsedText := ⟨between, treeBetween, by decide +kernel⟩

def grammar : Grammar := .knowing [text, textBetween]

def path : Path := ⟨0, ["main.js"]⟩

def issues : List Issue := [.unusedFunction ⟨"a", "main.js", 1, .arrowBinding⟩,
  .unusedFunction ⟨"c", "main.js", 2, .function⟩]

def targets : Targets := [("a", .arrowBinding), ("c", .function)]

def files : Memory := { files := [(path, source)] }

def plan : Plan :=
  ⟨[⟨4, 48, Utf8.encode "b = () => \x7b\n  function c() \x7b\x7d\n\x7d"⟩], 1, ["a"]⟩

def planBetween : Plan := ⟨[⟨16, 34, []⟩], 1, ["c"]⟩

theorem distinct : source ≠ between ∧ source ≠ last ∧ between ≠ last := by decide +kernel

theorem targets_eq : Mutation.targets {} issues = targets := by
  have hsort : Target.eligible issues [.unusedImports, .unusedFunctions] =
      [⟨"a", "main.js", 1, .arrowBinding⟩, ⟨"c", "main.js", 2, .function⟩] :=
    List.mergeSort_of_pairwise (by decide +kernel)
  rw [Mutation.targets, Target.ofIssues, hsort]
  decide +kernel

theorem gated : Gated grammar {} path issues source .javascript tree plan between where
  language_eq := by decide +kernel
  isValid := Utf8.isValid_encode _
  parsed := (Grammar.parse_eq_ok ..).2 ⟨Grammar.knowing_cons, by decide⟩
  planned := by
    rw [targets_eq]
    decide +kernel
  edits_ne_nil := by decide
  applied := by
    rw [Edit.apply, Edit.merge, List.mergeSort_of_pairwise (by decide +kernel)]
    decide +kernel
  isValid_content := Utf8.isValid_encode _
  validated _ := ⟨treeBetween, (Grammar.parse_eq_ok ..).2
    ⟨(Grammar.knowing_cons_of_ne distinct.1).trans Grammar.knowing_cons, by decide⟩⟩
  moderate _ := by decide +kernel

theorem gated_between :
    Gated grammar {} path issues between .javascript treeBetween planBetween last where
  language_eq := by decide +kernel
  isValid := Utf8.isValid_encode _
  parsed := (Grammar.parse_eq_ok ..).2
    ⟨(Grammar.knowing_cons_of_ne distinct.1).trans Grammar.knowing_cons, by decide⟩
  planned := by
    rw [targets_eq]
    decide +kernel
  edits_ne_nil := by decide
  applied := by
    rw [Edit.apply, Edit.merge, List.mergeSort_of_pairwise (by decide +kernel)]
    decide +kernel
  isValid_content := Utf8.isValid_encode _
  validated _ := ⟨bare, (Grammar.parse_eq_ok ..).2
    ⟨(Grammar.knowing_cons_of_ne distinct.2.1).trans (Grammar.knowing_cons_of_ne distinct.2.2), rfl⟩⟩
  moderate _ := by decide +kernel

theorem result_eq : (run grammar {} path issues files).result =
    .ok (.committed "main.js" 0 1 ["a"] false) := by
  have hread : Store.read files path = .ok source := by decide +kernel
  have hv := verdict_of_gated gated (by rw [targets_eq]; decide)
  rw [← hread] at hv
  rw [result_of_verdict hv fun _ => rfl]
  decide +kernel

end Nested

/-- A target in the body of a declarator that stays is found by the second run alone. -/
theorem second_run_can_commit :
    Nested.grammar.Sound ∧
    (run Nested.grammar {} Nested.path Nested.issues Nested.files).result =
      .ok (.committed "main.js" 0 1 ["a"] false) ∧
    (run Nested.grammar {} Nested.path Nested.issues
      (run Nested.grammar {} Nested.path Nested.issues Nested.files).files).result =
        .ok (.committed "main.js" 1 1 ["c"] false) := by
  refine ⟨Grammar.sound_knowing _, Nested.result_eq, ?_⟩
  obtain ⟨content, hv, -, -, hfiles⟩ := commit_of_run Nested.result_eq
  have hread : Store.read Nested.files Nested.path = .ok Nested.source := by decide +kernel
  have hcommit := verdict_of_gated Nested.gated (by rw [Nested.targets_eq]; decide)
  rw [hread, hcommit] at hv
  obtain ⟨rfl, -⟩ := Verdict.commit.inj (Except.ok.inj hv)
  have hread' : Store.read (Store.write Nested.files Nested.path Nested.between).2 Nested.path =
      .ok Nested.between := by decide +kernel
  have hv' := verdict_of_gated Nested.gated_between (by rw [Nested.targets_eq]; decide)
  rw [← hread'] at hv'
  rw [hfiles rfl, result_of_verdict hv' fun _ => rfl]
  decide +kernel

end Deadwood.Mutation
