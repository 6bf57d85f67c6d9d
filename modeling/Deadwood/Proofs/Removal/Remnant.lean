import Deadwood.Proofs.Analysis.Purpose
import Deadwood.Proofs.Removal.Stake

/-!
What is left of a name that is removed. A name is unused if all its identifiers stand where a name
is declared, written to or named as a label, so it is there that the file keeps it when a declaration
goes (`remnants_serve_one_purpose`). To write to a name is no reference to it, and so a write can
outlive what it writes to (`write_outlives_declaration`).
-/
namespace Deadwood

namespace Plan

variable {t : Targets} {source : Bytes} {tree : Node} {p : Place} {c : Change} {name : String}

def covers (plan : Plan) (p : Place) : Bool :=
  plan.edits.any fun e => decide (e.start ≤ p.node.start ∧ p.node.stop ≤ e.stop)

/-- The identifiers of a name that no edit covers. -/
def remnants (plan : Plan) (source : Bytes) (tree : Node) (name : String) : List Place :=
  (Reference.identifiers tree).filter fun p => p.node.text source = name && ! plan.covers p

/-- A place that declares the name, as a binding or as a member. -/
def Declares (source : Bytes) (tree : Node) (name : String) (q : Place) : Prop :=
  Place.Of tree q ∧ q.node.text source = name ∧
    (q.serves .binding = true ∨ q.serves .member = true)

/-- For each name of a change, one of its edits takes a declaration. -/
theorem Form.exists_declares (h : Form t source p c) (hw : WellFormed source tree)
    (hp : Place.Of tree p) (hname : name ∈ c.names) :
    ∃ q, Declares source tree name q ∧
      ∃ e ∈ c.edits, e.start ≤ q.node.start ∧ q.node.stop ≤ e.stop := by
  have hne : c ≠ {} := by
    rintro rfl
    cases hname
  by_cases hk : p.node.kind = .method
  · obtain ⟨key, hclass, hkey, -, rfl⟩ := h.of_method hk hne
    have hchild := Place.mem_children_of_child? hkey
    have hof := hp.of_mem_children hchild
    have hcovers := (IsTarget.method hk hclass).deletion_covers hw hp
    have hin := hof.within hp hw.isLaidOut (Place.suffix_of_mem_children hchild)
    have hserves :=
      Place.serves_of_name hkey (Reference.isDeclarationField_name (.inr (.inr hk)))
    exact ⟨key, ⟨hof, (List.mem_singleton.1 hname).symm, hserves⟩, _, List.mem_singleton_self _,
      hcovers.1.trans hin.1, hin.2.trans hcovers.2⟩
  · rw [h.names_atStake hk hne] at hname
    obtain ⟨b, hb, rfl⟩ := List.mem_map.1 hname
    obtain ⟨d, -, htargeted⟩ := atStake_cases hb
    exact ⟨b.1, ⟨(atStake_of_tree hp hb).1, rfl,
      Symbol.serves_of_definition (mem_targeted.1 htargeted).1⟩, (h.takes hw hp hne hb).1⟩

/-- A plan covers a declaration of each name that it records. -/
theorem exists_declares {plan : Plan} (h : ofTree t source tree = .ok plan)
    (hw : WellFormed source tree) (hname : name ∈ plan.names) :
    ∃ q, Declares source tree name q ∧ plan.covers q = true := by
  obtain ⟨steps, rfl, hsteps⟩ := exists_steps h
  rw [Step.names_run, List.nil_append] at hname
  obtain ⟨x, hx, hname⟩ := List.mem_flatMap.1 hname
  obtain ⟨q, hq, e, he, hin⟩ :=
    (form_of_change (hsteps.change_eq x hx)).exists_declares hw (hsteps.of_tree x hx) hname
  refine ⟨q, hq, List.any_eq_true.2 ⟨e, ?_, decide_eq_true hin⟩⟩
  rw [Step.edits_run, List.nil_append]
  exact List.mem_flatMap.2 ⟨x, hx, he⟩

end Plan

namespace Index

open Plan (Declares)

variable {options : AnalysisOptions} {failures : List ParseFailure} {files : List SourceFile}
  {name : String} {i : Issue}

/-- An identifier of an unused name counts as a declaration. -/
theorem isBinding_of_unused (hi : i ∈ Issue.unusedNamed name (build options files failures).issues)
    {f : SourceFile} (hf : f ∈ files) {p : Place} (hp : p ∈ Reference.identifiers f.tree)
    (htext : p.node.text f.source = name) : Reference.isBinding p = true := by
  by_contra hbinding
  have hunused := (unusedNamed_ne_nil_iff options failures name).1 (List.ne_nil_of_mem hi)
  exact hunused.2 (refers_iff.2 ⟨f, hf, p, hp, htext, Bool.eq_false_iff.2 hbinding⟩)

/-- Where a plan removes an unused name from one of the files, it takes a declaration of that name
there. What is left of the name in the file, but in the attributes of an import, is there for one
purpose each: to declare a binding, a member, a key or a label, to name the label to jump to, or to
be written to. -/
theorem remnants_serve_one_purpose (options : AnalysisOptions) (failures : List ParseFailure)
    (files : List SourceFile) (name : String) :
    ∀ i ∈ Issue.unusedNamed name (build options files failures).issues, ∀ f ∈ files,
      WellFormed f.source f.tree → Placed f.tree → ∀ s, i.unusedSymbol? = some s →
      ∀ plan, Plan.ofTree [(s.name, s.kind)] f.source f.tree = .ok plan → name ∈ plan.names →
      (∃ q, Declares f.source f.tree name q ∧ plan.covers q = true) ∧
      ∀ p ∈ plan.remnants f.source f.tree name, p.isInAttributes = false →
        ∃! u, p.serves u = true := by
  intro i hi f hf hw hplaced s _ plan hplan hname
  refine ⟨Plan.exists_declares hplan hw hname, fun p hp hout => ?_⟩
  obtain ⟨hp, hremains⟩ := List.mem_filter.1 hp
  rw [Bool.and_eq_true, decide_eq_true_eq] at hremains
  exact hplaced.existsUnique_serves hp (isBinding_of_unused hi hf hp hremains.1) hout

namespace Sample

open Deadwood.Sample (node token)

/-- A function that another value replaces. Its name is a key of that value and a label too. -/
def reassigned : SourceFile :=
  ⟨⟨0, ["a.js"]⟩,
    Utf8.encode "let f = () => 1;\nf = \x7b f: 1 \x7d;\nf: \x7b break f; \x7d\n",
    node "program" none 0 47 [
      node "lexical_declaration" none 0 16 [token "let" 0 3,
        node "variable_declarator" none 4 15 [node "identifier" (some "name") 4 5 [],
          token "=" 6 7, node "arrow_function" (some "value") 8 15 [
            node "formal_parameters" (some "parameters") 8 10 [token "(" 8 9, token ")" 9 10],
            token "=>" 11 13, node "number" (some "body") 14 15 []]], token ";" 15 16],
      node "expression_statement" none 17 30 [
        node "assignment_expression" none 17 29 [node "identifier" (some "left") 17 18 [],
          token "=" 19 20, node "object" (some "right") 21 29 [token "\x7b" 21 22,
            node "pair" none 23 27 [node "property_identifier" (some "key") 23 24 [],
              token ":" 24 25, node "number" (some "value") 26 27 []], token "\x7d" 28 29]],
        token ";" 29 30],
      node "labeled_statement" none 31 46 [node "statement_identifier" (some "label") 31 32 [],
        token ":" 32 33, node "statement_block" (some "body") 34 46 [token "\x7b" 34 35,
          node "break_statement" none 36 44 [token "break" 36 41,
            node "statement_identifier" (some "label") 42 43 [], token ";" 43 44],
          token "\x7d" 45 46]]]⟩

def replaced : Symbol := ⟨"f", "a.js", 1, .arrowBinding⟩

def replacedPlan : Plan := ⟨[⟨0, 17, []⟩], 1, ["f"]⟩

theorem unusedNamed_reassigned : Issue.unusedNamed "f" (build {} [reassigned] []).issues =
    [.unusedFunction replaced] := by
  have hlast : lastNamed? (([reassigned].mergeSort nameLe).flatMap (·.symbols)) "f" =
      some replaced := by
    rw [List.mergeSort_singleton]
    decide +kernel
  have hrefers : ¬ Refers [reassigned] "f" := by
    unfold Refers
    decide +kernel
  exact unusedNamed_eq_singleton {} [] hlast hrefers

theorem mem_unusedNamed_reassigned : Issue.unusedFunction replaced ∈
    Issue.unusedNamed "f" (build {} [reassigned] []).issues := by
  rw [unusedNamed_reassigned]
  exact List.mem_singleton_self _

theorem ofTree_reassigned :
    Plan.ofTree [(replaced.name, replaced.kind)] reassigned.source reassigned.tree =
      .ok replacedPlan := by
  decide +kernel

end Sample

/-- Of the name that goes with its declaration a write, a key, a label and a jump to it are left. -/
theorem remnants_serve_one_purpose_sample :
    Issue.unusedFunction Sample.replaced ∈
      Issue.unusedNamed "f" (build {} [Sample.reassigned] []).issues ∧
    (∃ q, Declares Sample.reassigned.source Sample.reassigned.tree "f" q ∧
      Sample.replacedPlan.covers q = true) ∧
    (∀ p ∈ Sample.replacedPlan.remnants Sample.reassigned.source Sample.reassigned.tree "f",
      p.isInAttributes = false → ∃! u, p.serves u = true) ∧
    List.Forall₂ (fun u p => p.serves u = true) [.write, .key, .label, .jump]
      (Sample.replacedPlan.remnants Sample.reassigned.source Sample.reassigned.tree "f") := by
  have h := remnants_serve_one_purpose {} [] [Sample.reassigned] "f" _
    Sample.mem_unusedNamed_reassigned Sample.reassigned (List.mem_singleton_self _)
    (by decide +kernel) (by decide +kernel) Sample.replaced rfl Sample.replacedPlan
    Sample.ofTree_reassigned (by decide)
  exact ⟨Sample.mem_unusedNamed_reassigned, h.1, h.2, by decide +kernel⟩

/-- The declaration goes. In the text that is left one place writes to the name and one jumps to the
label of that name, and neither declares anything. -/
theorem write_outlives_declaration :
    ∃ i ∈ Issue.unusedNamed "f" (build {} [Sample.reassigned] []).issues,
      i.file = Sample.reassigned.name ∧ ∃ s plan, i.unusedSymbol? = some s ∧
      Plan.ofTree [(s.name, s.kind)] Sample.reassigned.source Sample.reassigned.tree = .ok plan ∧
      "f" ∈ plan.names ∧
      Edit.apply Sample.reassigned.source plan.edits =
        .ok (Utf8.encode "f = \x7b f: 1 \x7d;\nf: \x7b break f; \x7d\n") ∧
      ∀ u ∈ [Purpose.write, .jump],
        ∃ p ∈ plan.remnants Sample.reassigned.source Sample.reassigned.tree "f",
          p.serves u = true ∧ ∀ v ∈ [Purpose.binding, .member, .key, .label],
            p.serves v = false := by
  refine ⟨_, Sample.mem_unusedNamed_reassigned, by decide +kernel, _, _, rfl,
    Sample.ofTree_reassigned, by decide, ?_, by decide +kernel⟩
  rw [Edit.apply, Edit.merge, List.mergeSort_of_pairwise (by decide +kernel)]
  decide +kernel

end Index

end Deadwood
