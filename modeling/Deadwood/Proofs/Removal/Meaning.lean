import Deadwood.Proofs.Removal.Declarator
import Mathlib.Data.List.Forall2

/-!
What an object pattern binds. A property binds the value at its key, and a rest element the object
without the keys that the pattern names. So a pattern written anew binds what stays to what it was
bound to, except that a rest element gets the properties whose keys are named no more
(`rebuilt_pattern_binds`).
-/
namespace Deadwood

/-! ### Nodes that are read again -/

/-- One node reads as another does, in another text. -/
inductive Node.Copies (source source' : Bytes) : Node → Node → Prop
  | mk {l l' : Label} {cs cs' : List Node} : l.type = l'.type → l.field = l'.field →
      l.named = l'.named → (Node.mk l cs).text source = (Node.mk l' cs').text source' →
      List.Forall₂ (Node.Copies source source') cs cs' →
      Node.Copies source source' (.mk l cs) (.mk l' cs')

namespace Node.Copies

variable {source source' : Bytes} {n n' : Node}

theorem type_eq (h : Copies source source' n n') : n.type = n'.type := by
  cases h with
  | mk htype => exact htype

theorem text_eq (h : Copies source source' n n') : n.text source = n'.text source' := by
  cases h with
  | mk _ _ _ htext => exact htext

/-- The first child that is asked for by its label is the same in both. -/
theorem find? {holds : Node → Bool} (hholds : ∀ c c', Copies source source' c c' →
    holds c = holds c') (h : Copies source source' n n') :
    Option.Rel (Copies source source') (n.children.find? holds) (n'.children.find? holds) := by
  cases h with
  | mk _ _ _ htext hchildren =>
    clear htext
    simp only [Node.children]
    induction hchildren with
    | nil => exact .none
    | @cons c c' _ _ hc _ ih =>
      rw [List.find?_cons, List.find?_cons, ← hholds c c' hc]
      cases holds c with
      | true => exact .some hc
      | false => exact ih

theorem child? (h : Copies source source' n n') (field : String) :
    Option.Rel (Copies source source') (n.child? field) (n'.child? field) := by
  refine h.find? fun c c' hc => ?_
  cases hc with
  | mk _ hfield => simp [Node.field, Node.label, hfield]

theorem text?_eq {o o' : Option Node} (h : Option.Rel (Copies source source') o o') :
    o.map (·.text source) = o'.map (·.text source') := by
  cases h with
  | none => rfl
  | some h => exact congrArg some h.text_eq

theorem firstNamed (h : Copies source source' n n') :
    Option.Rel (Copies source source') (n.children.find? Node.isNamed)
      (n'.children.find? Node.isNamed) := by
  refine h.find? fun c c' hc => ?_
  cases hc with
  | mk _ _ hnamed => exact hnamed

end Node.Copies

/-! ### Elements of a pattern -/

/-- Where the value of a property goes. -/
inductive Element.Target
  | name (text : String)
  | nested (pattern : String)
  deriving DecidableEq

/-- An element of an object pattern. -/
inductive Element
  | property (key : String) (target : Element.Target) (default? : Option String)
  | rest (name : String)
  deriving DecidableEq

namespace Element

def Target.ofNode (source : Bytes) (n : Node) : Target :=
  if n.type = "identifier" then .name (n.text source) else .nested (n.text source)

/-- The element that a child of a pattern is; a comment is none. -/
def ofNode? (source : Bytes) (n : Node) : Option Element :=
  match n.type with
  | "shorthand_property_identifier_pattern" =>
    some (.property (n.text source) (.name (n.text source)) none)
  | "object_assignment_pattern" => do
    let left ← (n.child? "left").map (·.text source)
    let right ← (n.child? "right").map (·.text source)
    return .property left (.name left) (some right)
  | "pair_pattern" => do
    let key ← (n.child? "key").map (·.text source)
    let value ← n.child? "value"
    if value.type = "assignment_pattern" then
      let left ← (value.child? "left").map (Target.ofNode source)
      let right ← (value.child? "right").map (·.text source)
      return .property key left (some right)
    else return .property key (.ofNode source value) none
  | "rest_pattern" =>
    ((n.children.find? Node.isNamed).map (·.text source)).map .rest
  | _ => none

def ofPattern (source : Bytes) (pattern : Node) : List Element :=
  pattern.namedChildren.filterMap (ofNode? source)

def key? : Element → Option String
  | .property key _ _ => some key
  | .rest _ => none

def isRest : Element → Bool
  | .property _ _ _ => false
  | .rest _ => true

end Element

/-- What texts mean where a pattern stands: a key, a default, and what the names of a nested pattern
get from a value. -/
structure Sense (κ ν : Type) where
  key : String → κ
  default : String → Option ν
  within : String → Option ν → List (String × Option ν)

/-- What a module gives: the values at its keys, some of which are its own. -/
structure Exports (κ ν : Type) where
  read : κ → Option ν
  owns : κ → Bool

/-- What a name is bound to: a value, if it is defined, or an object with some entries. -/
inductive Bound (κ ν : Type)
  | value (v : Option ν)
  | object (own? : κ → Option (Option ν))

section Meaning

variable {κ ν : Type} [DecidableEq κ]

/-- The own entries of an object apart from some keys. -/
def Exports.without (o : Exports κ ν) (keys : List κ) (k : κ) : Option (Option ν) :=
  if o.owns k && ! decide (k ∈ keys) then some (o.read k) else none

namespace Element

/-- The keys that the elements name. -/
def keys (sense : Sense κ ν) (elements : List Element) : List κ :=
  (elements.filterMap key?).map sense.key

/-- The names that an element binds next to the keys that are named, each with what it is bound
to. -/
def binds (sense : Sense κ ν) (o : Exports κ ν) (named : List κ) :
    Element → List (String × Bound κ ν)
  | .property key target default? =>
    let v := (o.read (sense.key key)).or (default?.bind sense.default)
    match target with
    | .name text => [(text, .value v)]
    | .nested pattern => (sense.within pattern v).map fun b => (b.1, .value b.2)
  | .rest name => [(name, .object (o.without named))]

theorem binds_of_not_isRest (sense : Sense κ ν) (o : Exports κ ν) (named named' : List κ)
    {x : Element} (h : x.isRest = false) : x.binds sense o named = x.binds sense o named' := by
  cases x with
  | property => rfl
  | rest => cases h

theorem binds_rest_iff (sense : Sense κ ν) (o : Exports κ ν) {named named' : List κ}
    (hsub : named ⊆ named') {x : Element} (h : x.isRest = true) :
    x.binds sense o named = x.binds sense o named' ↔
      ∀ k ∈ named', k ∉ named → o.owns k = false := by
  cases x with
  | property => cases h
  | rest name =>
    have hcongr : (Element.rest name).binds sense o named =
        (Element.rest name).binds sense o named' ↔ o.without named = o.without named' := by
      simp [binds]
    rw [hcongr, funext_iff]
    constructor
    · intro heq k hk hnot
      have := heq k
      simp only [Exports.without, hk, hnot] at this
      simpa using this
    · intro hown k
      by_cases hk : k ∈ named
      · simp [Exports.without, hk, hsub hk]
      · by_cases hk' : k ∈ named'
        · simp [Exports.without, hown k hk' hk]
        · simp [Exports.without, hk, hk']

end Element

end Meaning

namespace Element

variable {source source' : Bytes} {n n' : Node}

theorem Target.ofNode_eq_of_copies (h : n.Copies source source' n') :
    Target.ofNode source n = Target.ofNode source' n' := by
  rw [Target.ofNode, Target.ofNode, h.type_eq, h.text_eq]

/-- A node that reads as another is the same element. -/
theorem ofNode?_eq_of_copies (h : n.Copies source source' n') :
    ofNode? source n = ofNode? source' n' := by
  have htext := fun field => Node.Copies.text?_eq (h.child? field)
  unfold ofNode?
  rw [← h.type_eq]
  split
  · rw [h.text_eq]
  · rw [htext "left", htext "right"]
  · rw [htext "key"]
    cases hkey : (n'.child? "key").map (·.text source') with
    | none => rfl
    | some key =>
      have hvalue := h.child? "value"
      generalize n.child? "value" = value at hvalue
      generalize n'.child? "value" = value' at hvalue
      cases hvalue with
      | none => rfl
      | @some v v' hv =>
        have htarget : (v.child? "left").map (Target.ofNode source) =
            (v'.child? "left").map (Target.ofNode source') := by
          have hleft := hv.child? "left"
          generalize v.child? "left" = left at hleft ⊢
          generalize v'.child? "left" = left' at hleft ⊢
          cases hleft with
          | none => rfl
          | some hleft => exact congrArg some (Target.ofNode_eq_of_copies hleft)
        simp only [Option.bind_eq_bind, Option.bind_some]
        rw [← hv.type_eq, htarget, Node.Copies.text?_eq (hv.child? "right"),
          Target.ofNode_eq_of_copies hv]
  · rw [Node.Copies.text?_eq h.firstNamed]
  · rfl

end Element

namespace Plan

/-- A pattern that is read from the text of properties in braces, as these are read where they
stand. -/
structure Rereads (source : Bytes) (kept : List Place) (source' : Bytes) (pattern' : Node) :
    Prop where
  text_eq : pattern'.text source' = braced (kept.map (·.node.text source))
  copied : List.Forall₂ (Node.Copies source source') (kept.map (·.node)) pattern'.namedChildren

theorem Rereads.ofPattern_eq {source source' : Bytes} {kept : List Place} {pattern' : Node}
    (h : Rereads source kept source' pattern') : Element.ofPattern source' pattern' =
      (kept.map (·.node)).filterMap (Element.ofNode? source) := by
  have hcopied := h.copied
  unfold Element.ofPattern
  generalize pattern'.namedChildren = nodes at hcopied
  generalize kept.map (·.node) = nodes' at hcopied
  induction hcopied with
  | nil => rfl
  | cons hc _ ih => rw [List.filterMap_cons, List.filterMap_cons, ih,
      Element.ofNode?_eq_of_copies hc]

/-- What the pattern of a declarator has for elements once it is written anew, and to what they bind
names. -/
structure KeepsBindings {κ ν : Type} [DecidableEq κ] (sense : Sense κ ν) (o : Exports κ ν)
    (old new : List Element) : Prop where
  sublist : new.Sublist old
  binds_eq : ∀ x ∈ new, x.isRest = false →
    x.binds sense o (Element.keys sense new) = x.binds sense o (Element.keys sense old)
  binds_eq_iff : (∀ x ∈ new,
      x.binds sense o (Element.keys sense new) = x.binds sense o (Element.keys sense old)) ↔
    ((∃ x ∈ new, x.isRest = true) → ∀ k ∈ Element.keys sense old,
      k ∉ Element.keys sense new → o.owns k = false)

theorem keepsBindings_of_sublist {κ ν : Type} [DecidableEq κ] (sense : Sense κ ν) (o : Exports κ ν)
    {old new : List Element} (h : new.Sublist old) : KeepsBindings sense o old new where
  sublist := h
  binds_eq x _ hx := Element.binds_of_not_isRest sense o _ _ hx
  binds_eq_iff := by
    have hsub : Element.keys sense new ⊆ Element.keys sense old :=
      ((h.filterMap _).map _).subset
    constructor
    · rintro hall ⟨x, hx, hrest⟩
      exact (Element.binds_rest_iff sense o hsub hrest).1 (hall x hx)
    · intro hown x hx
      cases hrest : x.isRest with
      | false => exact Element.binds_of_not_isRest sense o _ _ hrest
      | true => exact (Element.binds_rest_iff sense o hsub hrest).2 (hown ⟨x, hx, hrest⟩)

theorem remaining_sublist {t : Targets} {source : Bytes} {d pattern : Place}
    (hname : d.child? "name" = some pattern) :
    (remaining t source d).Sublist pattern.namedChildren := by
  rw [remaining, hname]
  dsimp only
  split
  · exact List.filter_sublist
  · exact List.nil_sublist _

/-- A pattern written anew binds what stays as before, but a rest element only if the object has no
property of its own at the keys that are named no more. -/
theorem rebuilt_pattern_binds (t : Targets) (source : Bytes) (tree : Node) (d : Place)
    (hd : Place.Of tree d) (hk : d.node.kind = .variableDeclarator)
    (hgoes : targeted t source d ≠ []) (hstays : remaining t source d ≠ []) (source' : Bytes)
    (pattern' : Node) (hreread : Rereads source (remaining t source d) source' pattern')
    (κ ν : Type) [DecidableEq κ] (sense : Sense κ ν) (o : Exports κ ν) :
    ∃ names pattern, d.child? "name" = some pattern ∧
      fate t source d = .rebuild names (replacementOf pattern.node
        (braced ((remaining t source d).map (·.node.text source)))) ∧
      Element.ofPattern source' pattern' =
        (remaining t source d).filterMap (fun q => Element.ofNode? source q.node) ∧
      KeepsBindings sense o (Element.ofPattern source pattern.node)
        (Element.ofPattern source' pattern') := by
  rcases fate_cases t source hd hk with ⟨-, hnone⟩ | ⟨names, -, hdropped⟩ |
    ⟨names, pattern, hname, -, -, hfate⟩
  · exact absurd hnone hgoes
  · exact absurd (isDropped_eq_true.1 hdropped).2 hstays
  · refine ⟨names, pattern, hname, hfate, ?_, keepsBindings_of_sublist sense o ?_⟩
    · rw [hreread.ofPattern_eq, List.filterMap_map]
      rfl
    · rw [hreread.ofPattern_eq, Element.ofPattern, ← Place.namedChildren_nodes]
      exact ((remaining_sublist hname).map _).filterMap _

namespace WithRest

open Deadwood.Sample (node token)

/-- A pattern with a rest element beside a name that goes. -/
def source : Bytes := Utf8.encode "const \x7b a, ...rest \x7d = require(\"m\");\n"

def pattern : Node :=
  node "object_pattern" (some "name") 6 20 [token "\x7b" 6 7,
    node "shorthand_property_identifier_pattern" none 8 9 [], token "," 9 10,
    node "rest_pattern" none 11 18 [token "..." 11 14, node "identifier" none 14 18 []],
    token "\x7d" 19 20]

def required : Node :=
  node "call_expression" (some "value") 23 35 [node "identifier" (some "function") 23 30 [],
    node "arguments" (some "arguments") 30 35 [token "(" 30 31,
      node "string" none 31 34 [token "\"" 31 32, node "string_fragment" none 32 33 [],
        token "\"" 33 34],
      token ")" 34 35]]

def declarator : Node :=
  node "variable_declarator" none 6 35 [pattern, token "=" 21 22, required]

def declaration : Node :=
  node "lexical_declaration" none 0 36 [token "const" 0 5, declarator, token ";" 35 36]

def tree : Node := node "program" none 0 37 [declaration]

def targets : Targets := [("a", .importBinding)]

def place : Place := ⟨declarator, [(declaration, 1), (tree, 0)]⟩

/-- The text with the pattern written anew. -/
def source' : Bytes := Utf8.encode "const \x7b ...rest \x7d = require(\"m\");\n"

def pattern' : Node :=
  node "object_pattern" (some "name") 6 17 [token "\x7b" 6 7,
    node "rest_pattern" none 8 15 [token "..." 8 11, node "identifier" none 11 15 []],
    token "\x7d" 16 17]

theorem of_tree : Place.Of tree place := .child (.child .top rfl) rfl

theorem rereads : Rereads source (remaining targets source place) source' pattern' where
  text_eq := by decide +kernel
  copied := .cons (.mk rfl rfl rfl (by decide +kernel)
    (.cons (.mk rfl rfl rfl (by decide +kernel) .nil)
      (.cons (.mk rfl rfl rfl (by decide +kernel) .nil) .nil))) .nil

/-- Texts of names are keys, and there are no defaults. -/
def sense : Sense String Nat where
  key := id
  default _ := none
  within _ _ := []

/-- A module with a value of its own at one key. -/
def exporting (key : String) : Exports String Nat where
  read k := if k = key then some 1 else none
  owns k := k = key

end WithRest

/-- The module has nothing at the key that goes. -/
theorem rebuilt_pattern_binds_sample : ∃ names pattern,
    WithRest.place.child? "name" = some pattern ∧
      fate WithRest.targets WithRest.source WithRest.place = .rebuild names
        (replacementOf pattern.node (braced ((remaining WithRest.targets WithRest.source
          WithRest.place).map (·.node.text WithRest.source)))) ∧
      Element.ofPattern WithRest.source' WithRest.pattern' =
        (remaining WithRest.targets WithRest.source WithRest.place).filterMap
          (fun q => Element.ofNode? WithRest.source q.node) ∧
      KeepsBindings WithRest.sense (WithRest.exporting "b")
        (Element.ofPattern WithRest.source pattern.node)
        (Element.ofPattern WithRest.source' WithRest.pattern') :=
  rebuilt_pattern_binds WithRest.targets WithRest.source WithRest.tree WithRest.place
    WithRest.of_tree rfl (by decide +kernel) (by decide +kernel) WithRest.source' WithRest.pattern'
    WithRest.rereads String Nat WithRest.sense (WithRest.exporting "b")

/-- A module has a value at the key that goes, and the rest element gets it. -/
theorem rest_gains_removed_key :
    fate WithRest.targets WithRest.source WithRest.place =
      .rebuild ["a"] ⟨6, 20, Utf8.encode "\x7b ...rest \x7d"⟩ ∧
    Rereads WithRest.source (remaining WithRest.targets WithRest.source WithRest.place)
      WithRest.source' WithRest.pattern' ∧
    Element.ofPattern WithRest.source WithRest.pattern =
      [.property "a" (.name "a") none, .rest "rest"] ∧
    Element.ofPattern WithRest.source' WithRest.pattern' = [.rest "rest"] ∧
    (Element.rest "rest").binds WithRest.sense (WithRest.exporting "a")
        (Element.keys WithRest.sense (Element.ofPattern WithRest.source' WithRest.pattern')) ≠
      (Element.rest "rest").binds WithRest.sense (WithRest.exporting "a")
        (Element.keys WithRest.sense (Element.ofPattern WithRest.source WithRest.pattern)) := by
  have hold : Element.ofPattern WithRest.source WithRest.pattern =
      [.property "a" (.name "a") none, .rest "rest"] := by decide +kernel
  have hnew : Element.ofPattern WithRest.source' WithRest.pattern' = [.rest "rest"] := by
    decide +kernel
  refine ⟨rfl, WithRest.rereads, hold, hnew, fun h => ?_⟩
  rw [hold, hnew] at h
  have hown := (Element.binds_rest_iff WithRest.sense (WithRest.exporting "a")
    (List.nil_subset ["a"]) rfl).1 h "a" (List.mem_singleton_self "a") List.not_mem_nil
  simp [WithRest.exporting] at hown

end Plan

end Deadwood
