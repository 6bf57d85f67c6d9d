import Deadwood.Proofs.Files.Memory
import Deadwood.Proofs.Removal.Generate
import Deadwood.Surgery.Mutation

/-!
Mutation as a transaction. A commit has passed every gate (`Gated`), and a file changes only by a
commit that is not dry, to the edited text.
-/
namespace Deadwood

/-- Texts without fault have trees as promised. -/
def Grammar.Sound (g : Grammar) : Prop :=
  ∀ language source tree, Utf8.isValid source = true → g.parse language source = .ok tree →
    WellFormed source tree ∧ OnCharacters source tree ∧ Grammatical tree

/-- A text and its tree, of which all holds that is promised. -/
structure ParsedText where
  source : Bytes
  tree : Node
  promised : WellFormed source tree ∧ OnCharacters source tree ∧ Grammatical tree

namespace Grammar

variable {text : ParsedText} {texts : List ParsedText} {language : Language} {source : Bytes}

/-- Knows some texts; every other has nothing in it. -/
def knowing (texts : List ParsedText) : Grammar := fun _ source =>
  ((texts.find? (·.source = source)).map (·.tree)).getD Sample.bare

theorem knowing_cons : knowing (text :: texts) language text.source = text.tree := by
  simp [knowing]

theorem knowing_cons_of_ne (h : text.source ≠ source) :
    knowing (text :: texts) language source = knowing texts language source := by
  simp [knowing, h]

theorem sound_knowing (texts : List ParsedText) : (knowing texts).Sound := by
  intro language source tree _ hparse
  obtain ⟨rfl, -⟩ := (parse_eq_ok ..).1 hparse
  unfold knowing
  cases hfind : texts.find? (·.source = source) with
  | none =>
    exact ⟨Sample.wellFormed_bare source, Sample.onCharacters_bare source, Sample.grammatical_bare⟩
  | some text =>
    have hsource : text.source = source := by simpa using List.find?_some hfind
    exact hsource ▸ text.promised

end Grammar

namespace Mutation

section Gates

variable {g : Grammar} {o : SurgeryOptions} {path : Path} {issues : List Issue}
  {language : Language} {source content : Bytes} {tree : Node} {plan : Plan}

/-- What has to hold of a file, its plan and the edited text for a commit. -/
structure Gated (g : Grammar) (o : SurgeryOptions) (path : Path) (issues : List Issue)
    (source : Bytes) (language : Language) (tree : Node) (plan : Plan) (content : Bytes) :
    Prop where
  language_eq : Language.ofPath? path = some language
  isValid : Utf8.isValid source = true
  parsed : g.parse language source = .ok tree
  planned : Plan.ofTree (targets o issues) source tree = .ok plan
  edits_ne_nil : plan.edits ≠ []
  applied : Edit.apply source plan.edits = .ok content
  isValid_content : Utf8.isValid content = true
  validated : o.validateSyntax = true → ∃ tree', g.parse language content = .ok tree'
  moderate : o.conservative = true →
    Binary64.lt o.threshold (reductionRatio (lineCount source) (lineCount content)) = false

theorem load_of_parse (hlanguage : Language.ofPath? path = some language)
    (hvalid : Utf8.isValid source = true) :
    load g path (.ok source) = (g.parse language source).map fun tree =>
      (language, ⟨path, source, tree⟩) := by
  obtain ⟨text, htext⟩ := Utf8.exists_decode hvalid
  unfold load
  rw [hlanguage]
  cases hparse : g.parse language source with
  | error e => simp only [htext, hparse, bind, Except.bind, Except.mapError, Except.map]
  | ok tree =>
    simp only [htext, hparse, bind, Except.bind, Except.mapError, Except.map, pure, Except.pure]

theorem load_eq_ok {read : Except FileError Bytes} {file : SourceFile}
    (h : load g path read = .ok (language, file)) :
    Language.ofPath? path = some language ∧ read = .ok file.source ∧
      Utf8.isValid file.source = true ∧ g.parse language file.source = .ok file.tree := by
  unfold load at h
  cases hl : Language.ofPath? path with
  | none => simp [hl] at h
  | some l =>
    cases read with
    | error e => simp [hl, bind, Except.bind, Except.mapError] at h
    | ok source =>
      cases hd : Utf8.decode source with
      | error e => simp [hl, hd, bind, Except.bind, Except.mapError] at h
      | ok text =>
        cases hp : g.parse l source with
        | error e => simp [hl, hd, hp, bind, Except.bind, Except.mapError] at h
        | ok tree =>
          simp only [hl, hd, hp, bind, Except.bind, Except.mapError, pure, Except.pure,
            Except.ok.injEq, Prod.mk.injEq] at h
          obtain ⟨rfl, rfl⟩ := h
          exact ⟨rfl, rfl, by simp [Utf8.isValid, hd, Except.isOk, Except.toBool], hp⟩

theorem generate_eq_ok {edits : List Edit} : generate source edits = .ok content ↔
    Edit.apply source edits = .ok content ∧ Utf8.isValid content = true := by
  unfold generate
  cases ha : Edit.apply source edits with
  | error e => simp [bind, Except.bind, Except.mapError]
  | ok text =>
    cases hd : Utf8.decode text with
    | error e =>
      simp only [bind, Except.bind, Except.mapError, hd, reduceCtorEq, Except.ok.injEq, false_iff]
      rintro ⟨rfl, hvalid⟩
      simp [Utf8.isValid, hd, Except.isOk, Except.toBool] at hvalid
    | ok decoded =>
      simp only [bind, Except.bind, Except.mapError, hd, pure, Except.pure, Except.ok.injEq]
      constructor
      · rintro rfl
        exact ⟨rfl, by simp [Utf8.isValid, hd, Except.isOk, Except.toBool]⟩
      · exact fun h => h.1

theorem checkReduction_eq_ok {before after : Int} : checkReduction o before after = .ok () ↔
    (o.conservative = true → Binary64.lt o.threshold (reductionRatio before after) = false) := by
  unfold checkReduction
  dsimp only
  split
  · next h => simp [h.1, h.2]
  · next h =>
    rw [not_and, Bool.not_eq_true] at h
    simpa using h

theorem validate_eq_ok : validate g o language content = .ok () ↔
    (o.validateSyntax = true → ∃ tree, g.parse language content = .ok tree) := by
  unfold validate
  split
  · next h =>
    cases hp : g.parse language content with
    | error e => simp [h, Except.map, Except.mapError]
    | ok tree => simp [Except.map, Except.mapError]
  · next h => simp [h]

theorem gates_eq_ok : gates g o language source plan = .ok content ↔
    (Edit.apply source plan.edits = .ok content ∧ Utf8.isValid content = true) ∧
    (o.conservative = true →
      Binary64.lt o.threshold (reductionRatio (lineCount source) (lineCount content)) = false) ∧
    (o.validateSyntax = true → ∃ tree, g.parse language content = .ok tree) := by
  rw [← generate_eq_ok, ← checkReduction_eq_ok, ← validate_eq_ok]
  unfold gates
  cases hgen : generate source plan.edits with
  | error r => simp [bind, Except.bind]
  | ok text =>
    simp only [bind, Except.bind, Except.ok.injEq, pure, Except.pure]
    constructor
    · intro h
      cases hcheck : checkReduction o (lineCount source) (lineCount text) with
      | error x => simp [hcheck, Except.mapError] at h
      | ok u =>
        cases hval : validate g o language text with
        | error r => simp [hcheck, hval, Except.mapError] at h
        | ok u' =>
          simp only [hcheck, hval, Except.mapError, Except.ok.injEq] at h
          subst h
          exact ⟨rfl, hcheck, hval⟩
    · rintro ⟨rfl, hcheck, hval⟩
      simp [hcheck, hval, Except.mapError]

theorem reason_of_validate {r : Rejection} (h : validate g o language content = .error r) :
    r.reason = .syntaxError := by
  unfold validate at h
  split at h
  · cases hp : g.parse language content with
    | error problem =>
      simp only [hp, Except.map, Except.mapError, Except.error.injEq] at h
      exact h ▸ rfl
    | ok tree => simp [hp, Except.map, Except.mapError] at h
  · cases h

/-- Past the generation, only the later gates reject. -/
theorem reason_of_gates {text : Bytes} {r : Rejection}
    (hgen : generate source plan.edits = .ok text)
    (h : gates g o language source plan = .error r) : r.reason ≠ .generationError := by
  unfold gates at h
  simp only [hgen, bind, Except.bind] at h
  cases hcheck : checkReduction o (lineCount source) (lineCount text) with
  | error x =>
    simp only [hcheck, Except.mapError, Except.error.injEq] at h
    subst h
    simp [Rejection.reason]
  | ok u =>
    cases hval : validate g o language text with
    | error r' =>
      simp only [hcheck, hval, Except.mapError, Except.error.injEq] at h
      subst h
      simp [reason_of_validate hval]
    | ok u' => simp [hcheck, hval, Except.mapError, pure, Except.pure] at h

theorem reason_of_generate {edits : List Edit} {r : Rejection}
    (h : generate source edits = .error r) : r.reason = .generationError := by
  unfold generate at h
  cases ha : Edit.apply source edits with
  | error conflict =>
    simp only [ha, bind, Except.bind, Except.mapError, Except.error.injEq] at h
    exact h ▸ rfl
  | ok text =>
    cases hd : Utf8.decode text with
    | error fault =>
      simp only [ha, hd, bind, Except.bind, Except.mapError, Except.error.injEq] at h
      exact h ▸ rfl
    | ok decoded => simp [ha, hd, bind, Except.bind, Except.mapError, pure, Except.pure] at h

/-- A verdict that is about edits comes from the gates. -/
theorem verdict_cases {read : Except FileError Bytes} {v : Verdict}
    (h : verdict g o path issues read = .ok v) :
    (∃ p, v = .skip p) ∨ v = .leave ∨
    ∃ source language tree plan, read = .ok source ∧ Language.ofPath? path = some language ∧
      Utf8.isValid source = true ∧ g.parse language source = .ok tree ∧
      Plan.ofTree (targets o issues) source tree = .ok plan ∧ plan.edits ≠ [] ∧
      ((∃ r, gates g o language source plan = .error r ∧ v = .reject r) ∨
        ∃ content, gates g o language source plan = .ok content ∧
          v = .commit content (lineCount source - lineCount content) plan.nodesRemoved
            plan.names) := by
  unfold verdict at h
  cases hload : load g path read with
  | error p =>
    simp only [hload, Except.ok.injEq] at h
    exact .inl ⟨p, h.symm⟩
  | ok loaded =>
    obtain ⟨language, file⟩ := loaded
    obtain ⟨hlanguage, rfl, hvalid, hparse⟩ := load_eq_ok hload
    simp only [hload] at h
    unfold verdictOf at h
    dsimp only at h
    refine .inr ?_
    split at h
    · exact .inl (Except.ok.inj h).symm
    · cases hplan : Plan.ofTree (targets o issues) file.source file.tree with
      | error fault => simp [hplan] at h
      | ok plan =>
        simp only [hplan] at h
        split at h
        · exact .inl (Except.ok.inj h).symm
        · next hedits =>
          refine .inr ⟨file.source, language, file.tree, plan, rfl, hlanguage, hvalid, hparse,
            hplan, by simpa using hedits, ?_⟩
          cases hgates : gates g o language file.source plan with
          | error r =>
            simp only [hgates, Except.ok.injEq] at h
            exact .inl ⟨r, rfl, h.symm⟩
          | ok text =>
            simp only [hgates, Except.ok.injEq] at h
            exact .inr ⟨text, rfl, h.symm⟩

/-- A verdict to commit has passed the gates. -/
theorem gated_of_commit {read : Except FileError Bytes} {lines : Int} {nodes : Nat}
    {names : List String}
    (h : verdict g o path issues read = .ok (.commit content lines nodes names)) :
    ∃ source language tree plan, read = .ok source ∧
      Gated g o path issues source language tree plan content ∧
      lines = lineCount source - lineCount content ∧ nodes = plan.nodesRemoved ∧
      names = plan.names := by
  rcases verdict_cases h with ⟨p, hv⟩ | hv | ⟨source, language, tree, plan, hread, hlanguage,
    hvalid, hparse, hplan, hedits, ⟨r, -, hv⟩ | ⟨text, hgates, hv⟩⟩
  · cases hv
  · cases hv
  · cases hv
  · rw [Verdict.commit.injEq] at hv
    obtain ⟨rfl, rfl, rfl, rfl⟩ := hv
    obtain ⟨⟨happly, htext⟩, hmoderate, hvalidated⟩ := gates_eq_ok.1 hgates
    exact ⟨source, language, tree, plan, hread, ⟨hlanguage, hvalid, hparse, hplan, hedits, happly,
      htext, hvalidated, hmoderate⟩, rfl, rfl, rfl⟩

/-- What has passed the gates is committed. -/
theorem verdict_of_gated (h : Gated g o path issues source language tree plan content)
    (hne : targets o issues ≠ []) : verdict g o path issues (.ok source) =
      .ok (.commit content (lineCount source - lineCount content) plan.nodesRemoved plan.names) := by
  have hgates : gates g o language source plan = .ok content :=
    gates_eq_ok.2 ⟨⟨h.applied, h.isValid_content⟩, h.moderate, h.validated⟩
  have hload : load g path (.ok source) = .ok (language, ⟨path, source, tree⟩) := by
    rw [load_of_parse h.language_eq h.isValid, h.parsed]
    rfl
  unfold verdict
  rw [hload]
  unfold verdictOf
  simp only [h.planned, hgates]
  rw [if_neg (by simpa using hne), if_neg (by simpa using h.edits_ne_nil)]

/-- On well-formed trees there is always a verdict, and it is never that the edits fail. -/
theorem exists_verdict (hg : g.Sound) (o : SurgeryOptions) (path : Path) (issues : List Issue)
    (read : Except FileError Bytes) :
    ∃ v, verdict g o path issues read = .ok v ∧
      ∀ r, v = .reject r → r.reason ≠ .generationError := by
  unfold verdict
  cases hload : load g path read with
  | error p => exact ⟨_, rfl, by simp⟩
  | ok loaded =>
    obtain ⟨language, file⟩ := loaded
    obtain ⟨-, -, hvalid, hparse⟩ := load_eq_ok hload
    obtain ⟨hw, hc, hgram⟩ := hg language file.source file.tree hvalid hparse
    obtain ⟨plan, hplan⟩ := Plan.exists_plan (targets o issues) hw hc
    obtain ⟨text, htext⟩ := Plan.exists_apply hw hgram hplan
    have hgen := generate_eq_ok.2 ⟨htext, Plan.isValid_of_apply hw hgram hc hvalid hplan htext⟩
    dsimp only
    unfold verdictOf
    dsimp only
    split
    · exact ⟨_, rfl, by simp⟩
    · rw [hplan]
      dsimp only
      split
      · exact ⟨_, rfl, by simp⟩
      · cases hgates : gates g o language file.source plan with
        | error r =>
          refine ⟨_, rfl, fun r' hr => ?_⟩
          cases hr
          exact reason_of_gates hgen hgates
        | ok content => exact ⟨_, rfl, by simp⟩

section Run

variable {σ : Type} [Store σ] {files : σ}

/-- A run that reports a commit has had that verdict, and it writes unless it is dry. -/
theorem commit_of_run {file : String} {lines : Int} {nodes : Nat} {names : List String}
    {dryRun : Bool}
    (h : (run g o path issues files).result = .ok (.committed file lines nodes names dryRun)) :
    ∃ content,
      verdict g o path issues (Store.read files path) = .ok (.commit content lines nodes names) ∧
      file = path.toString ∧ dryRun = o.dryRun ∧
      (dryRun = false → (run g o path issues files).files = (Store.write files path content).2) := by
  unfold run at h ⊢
  cases hv : verdict g o path issues (Store.read files path) with
  | error fault => simp [hv] at h
  | ok v =>
    simp only [hv] at h ⊢
    cases v with
    | skip | leave | reject => cases h
    | commit content lines' nodes' names' =>
      unfold finish at h ⊢
      cases hd : o.dryRun with
      | true =>
        simp only [written?, hd, if_true, outcome, Except.ok.injEq, Outcome.committed.injEq] at h ⊢
        obtain ⟨rfl, rfl, rfl, rfl, rfl⟩ := h
        exact ⟨content, rfl, rfl, rfl, by simp⟩
      | false =>
        simp only [written?, hd, outcome] at h ⊢
        cases hw : Store.write files path content with
        | mk written files' =>
          cases written with
          | error e => simp [hw] at h
          | ok u =>
            simp only [hw, Except.ok.injEq, Outcome.committed.injEq, Bool.false_eq_true,
              if_false] at h ⊢
            obtain ⟨rfl, rfl, rfl, rfl, rfl⟩ := h
            exact ⟨content, rfl, rfl, rfl, fun _ => by simp [hw]⟩

/-- A run without a crash reports its verdict. -/
theorem result_of_verdict {v : Verdict}
    (hv : verdict g o path issues (Store.read files path) = .ok v)
    (hwrite : ∀ content, (Store.write files path content).1 = .ok ()) :
    (run g o path issues files).result = .ok (outcome o path.toString v) := by
  unfold run
  simp only [hv]
  unfold finish
  cases hw : written? o v with
  | none => rfl
  | some content =>
    have hok := hwrite content
    cases hstore : Store.write files path content with
    | mk written files' =>
      rw [hstore] at hok
      dsimp only at hok ⊢
      subst hok
      simp [hstore]

theorem written?_eq_some {v : Verdict} (h : written? o v = some content) :
    ∃ lines nodes names, v = .commit content lines nodes names ∧ o.dryRun = false := by
  cases v with
  | skip | leave | reject => cases h
  | commit content' lines nodes names =>
    simp only [written?] at h
    split at h
    · cases h
    · next hdry =>
      simp only [Option.some.injEq] at h
      exact ⟨lines, nodes, names, by rw [h], by simpa using hdry⟩

/-- Where writes succeed, a run that reports no live commit leaves the files alone. -/
theorem files_of_run (hwrite : ∀ content, (Store.write files path content).1 = .ok ())
    (h : ∀ file lines nodes names,
      (run g o path issues files).result ≠ .ok (.committed file lines nodes names false)) :
    (run g o path issues files).files = files := by
  cases hv : verdict g o path issues (Store.read files path) with
  | error fault =>
    unfold run
    rw [hv]
  | ok v =>
    have hresult := result_of_verdict hv hwrite
    cases hw : written? o v with
    | none =>
      unfold run finish
      simp only [hv, hw]
    | some content =>
      -- Only a live commit writes, and it would have been reported.
      obtain ⟨lines, nodes, names, rfl, hdry⟩ := written?_eq_some hw
      rw [outcome, hdry] at hresult
      exact absurd hresult (h _ _ _ _)

theorem result_finish (o : SurgeryOptions) (path : Path) (files : σ) (v : Verdict) :
    (finish o path files v).result = .ok (outcome o path.toString v) ∨
      ∃ crash, (finish o path files v).result = .error crash := by
  unfold finish
  cases written? o v with
  | none => exact .inl rfl
  | some content =>
    dsimp only
    cases Store.write files path content with
    | mk written files' =>
      cases written with
      | error e => exact .inr ⟨_, rfl⟩
      | ok u => exact .inl rfl

/-- No run reports that edits failed, whatever the store. -/
theorem result_ne_generationError (hg : g.Sound) (files : σ) (file message : String) :
    (run g o path issues files).result ≠ .ok (.rolledBack file .generationError message) := by
  obtain ⟨v, hv, hreason⟩ := exists_verdict hg o path issues (Store.read files path)
  unfold run
  simp only [hv]
  rcases result_finish o path files v with h | ⟨crash, h⟩
  · rw [h]
    cases v with
    | skip | leave | commit => simp [outcome]
    | reject r =>
      simp only [outcome, ne_eq, Except.ok.injEq, Outcome.rolledBack.injEq, not_and]
      exact fun _ hr => absurd hr (hreason r rfl)
  · rw [h]
    simp

end Run

end Gates

namespace Sample

open Deadwood.Sample

/-- Knows one text; every other has nothing in it. -/
def grammar : Grammar := fun _ text => if text = source then tree else bare

theorem sound : grammar.Sound := by
  intro language text parsed _ hparse
  rw [Grammar.parse_eq_ok] at hparse
  obtain ⟨rfl, -⟩ := hparse
  unfold grammar
  split
  · next h => exact h ▸ ⟨wellFormed, onCharacters, grammatical⟩
  · exact ⟨wellFormed_bare text, onCharacters_bare text, grammatical_bare⟩

def path : Path := ⟨0, ["main.js"]⟩

def files : Memory := { files := [(path, source), (⟨0, ["other.js"]⟩, [])] }

def options : SurgeryOptions := { conservative := false }

def unused : List Symbol :=
  [⟨"a", "main.js", 1, .importBinding⟩, ⟨"f", "main.js", 3, .function⟩]

def issues : List Issue := [.unusedImport ⟨"a", "main.js", 1, .importBinding⟩,
  .unusedFunction ⟨"f", "main.js", 3, .function⟩]

def edited : Bytes := Utf8.encode "import \x7b b \x7d from \"m\";\n"

theorem targets_eq : Mutation.targets options issues = Deadwood.Sample.targets := by
  have hsort : Target.eligible issues options.operations = unused :=
    List.mergeSort_of_pairwise (by decide +kernel)
  rw [Mutation.targets, Target.ofIssues, hsort]
  decide +kernel

theorem apply_eq : Edit.apply source plan.edits = .ok edited := by
  have hsort : plan.edits.mergeSort Edit.le = plan.edits :=
    List.mergeSort_of_pairwise (by decide +kernel)
  rw [Edit.apply, Edit.merge, hsort]
  decide +kernel

theorem gated : Gated grammar options path issues source .javascript tree plan edited where
  language_eq := by decide +kernel
  isValid := Utf8.isValid_encode _
  parsed := (Grammar.parse_eq_ok ..).2 ⟨if_pos rfl, by decide +kernel⟩
  planned := targets_eq ▸ ofTree_eq
  edits_ne_nil := by decide
  applied := apply_eq
  isValid_content := Utf8.isValid_encode _
  validated _ := ⟨bare, (Grammar.parse_eq_ok ..).2 ⟨if_neg (by decide +kernel), rfl⟩⟩
  moderate h := by cases h

/-- The run that removes an import and a function. -/
theorem result_eq : (run grammar options path issues files).result =
    .ok (.committed "main.js" 2 2 ["a", "f"] false) := by
  have hread : Store.read files path = .ok source := by decide +kernel
  have hv := verdict_of_gated gated (by rw [targets_eq]; decide)
  rw [← hread] at hv
  rw [result_of_verdict hv fun _ => rfl]
  decide +kernel

end Sample

/-- Every plan can be generated, so no run rolls back because edits failed. -/
theorem generation_succeeds :
    (∀ (t : Targets) (source : Bytes) (tree : Node), Utf8.isValid source = true →
      WellFormed source tree → OnCharacters source tree → Grammatical tree →
      ∃ plan content, Plan.ofTree t source tree = .ok plan ∧
        Edit.apply source plan.edits = .ok content ∧ Utf8.isValid content = true ∧
        generate source plan.edits = .ok content) ∧
    ∀ (σ : Type) [Store σ] (g : Grammar) (o : SurgeryOptions) (path : Path) (issues : List Issue)
      (files : σ), g.Sound → ∀ file message,
      (run g o path issues files).result ≠ .ok (.rolledBack file .generationError message) := by
  refine ⟨fun t source tree hs hw hc hg => ?_, fun σ _ g o path issues files hg =>
    result_ne_generationError hg files⟩
  obtain ⟨plan, hplan⟩ := Plan.exists_plan t hw hc
  obtain ⟨content, hcontent⟩ := Plan.exists_apply hw hg hplan
  have hvalid := Plan.isValid_of_apply hw hg hc hs hplan hcontent
  exact ⟨plan, content, hplan, hcontent, hvalid, generate_eq_ok.2 ⟨hcontent, hvalid⟩⟩

theorem generation_succeeds_sample :
    (∃ plan content, Plan.ofTree Deadwood.Sample.targets Sample.source Sample.tree = .ok plan ∧
      Edit.apply Sample.source plan.edits = .ok content ∧
      Utf8.isValid content = true ∧ generate Sample.source plan.edits = .ok content) ∧
    ∀ file message,
      (run Sample.grammar Sample.options Sample.path Sample.issues Sample.files).result ≠
        .ok (.rolledBack file .generationError message) :=
  ⟨generation_succeeds.1 _ _ _ (Utf8.isValid_encode _) Sample.wellFormed Sample.onCharacters
    Sample.grammatical, generation_succeeds.2 _ _ _ _ _ _ Sample.sound⟩

/-- A mutation in memory is a transaction: it changes nothing, or it commits the edited text of
the one file after every gate has passed, and the report says what was written. -/
theorem run_is_transaction (g : Grammar) (o : SurgeryOptions) (path : Path) (issues : List Issue)
    (files : Memory) (hwrite : path ∉ files.unwritable) :
    (g.Sound → ∃ outcome, (run g o path issues files).result = .ok outcome) ∧
    ((∀ file lines nodes names,
        (run g o path issues files).result ≠ .ok (.committed file lines nodes names false)) →
      (run g o path issues files).files = files) ∧
    ∀ file lines nodes names dryRun,
      (run g o path issues files).result = .ok (.committed file lines nodes names dryRun) →
      ∃ source language tree plan content, files.read path = .ok source ∧
        Gated g o path issues source language tree plan content ∧
        file = path.toString ∧ lines = lineCount source - lineCount content ∧
        nodes = plan.nodesRemoved ∧ names = plan.names ∧ nodes = names.length ∧
        dryRun = o.dryRun ∧
        (dryRun = false → ∀ q, (run g o path issues files).files.read q =
          if q = path then .ok content else files.read q) := by
  have hok : ∀ content, (Store.write files path content).1 = .ok () := fun content =>
    congrArg Prod.fst (Memory.write_eq hwrite content)
  refine ⟨fun hg => ?_, files_of_run hok, ?_⟩
  · obtain ⟨v, hv, -⟩ := exists_verdict hg o path issues (Store.read files path)
    exact ⟨_, result_of_verdict hv hok⟩
  · intro file lines nodes names dryRun hrun
    obtain ⟨content, hv, hfile, hdry, hfiles⟩ := commit_of_run hrun
    obtain ⟨source, language, tree, plan, hread, hgated, hlines, hnodes, hnames⟩ :=
      gated_of_commit hv
    refine ⟨source, language, tree, plan, content, hread, hgated, hfile, hlines, hnodes, hnames,
      ?_, hdry, fun hlive q => ?_⟩
    · rw [hnodes, hnames, Plan.nodesRemoved_eq hgated.planned]
    · have hstored : (Store.write files path content).2 = _ :=
        congrArg Prod.snd (Memory.write_eq hwrite content)
      rw [hfiles hlive, hstored]
      exact Memory.read_put (Memory.not_mem_unreadable hread) q _

/-- The file holds the edited text after the run, and the other file what it held. -/
theorem run_is_transaction_sample :
    Sample.path ∉ Sample.files.unwritable ∧
    (∃ content, ∀ q, (run Sample.grammar Sample.options Sample.path Sample.issues
      Sample.files).files.read q = if q = Sample.path then .ok content else Sample.files.read q) := by
  have hwrite : Sample.path ∉ Sample.files.unwritable := by decide
  obtain ⟨-, -, hcommit⟩ :=
    run_is_transaction Sample.grammar Sample.options Sample.path Sample.issues Sample.files hwrite
  obtain ⟨_, _, _, _, content, _, _, _, _, _, _, _, _, hfiles⟩ := hcommit _ _ _ _ _ Sample.result_eq
  exact ⟨hwrite, content, hfiles rfl⟩

end Mutation

end Deadwood
