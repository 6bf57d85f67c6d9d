import Deadwood.Analysis.Channel
import Deadwood.Proofs.Path
import Mathlib.Data.Option.Basic
import Mathlib.Data.String.Basic

/-!
What is called. A callee has a name if it is a name or plain member accesses over one, whatever the
number of accesses (`calleeParts_eq_some_iff`). A form matches such a name if its own parts are the
last parts of it (`matchesForm_iff`), and forms that define a channel go before forms that invoke
one.
-/
namespace Deadwood.Channel

variable {source : Bytes} {callee n object property : Node} {ns : List Node}
  {parts : List String} {form : String} {forms : ChannelForms}

/-! ## Chains of accesses -/

/-- A name, or plain member accesses over one, with the names along it. -/
inductive Chain (source : Bytes) : Node → List String → Prop
  | name {n : Node} : n.type = "identifier" → Chain source n [n.text source]
  | access {n property object : Node} {parts : List String} : n.type = "member_expression" →
      n.child? "property" = some property → Symbol.isMemberName property = true →
      n.child? "object" = some object → Chain source object parts →
      Chain source n (parts ++ [property.text source])

/-- A node accesses a member of an object by its name. -/
structure IsAccess (n : Node) : Prop where
  type_eq : n.type = "member_expression"
  property : ∃ property, n.child? "property" = some property ∧ Symbol.isMemberName property = true
  object : ∃ object, n.child? "object" = some object

/-- The nodes along a callee: itself, its object, the object of that, as far as a name. -/
inductive Along : Node → Node → Prop
  | self (n : Node) : Along n n
  | object {n object m : Node} : n.type ≠ "identifier" → n.child? "object" = some object →
      Along object m → Along n m

theorem objectParts_eq (source : Bytes) (ns : List Node) :
    objectParts source ns = (ns.find? (·.field == some "object")).bind (calleeParts source) := by
  induction ns with
  | nil => rfl
  | cons n rest ih =>
    rw [objectParts, List.find?_cons]
    split
    · next h => rw [h, Option.bind_some]
    · next h => rw [Bool.eq_false_iff.2 h, ih]

theorem calleeParts_of_name (h : n.type = "identifier") :
    calleeParts source n = some [n.text source] := by
  cases n with
  | mk l cs => exact if_pos h

theorem calleeParts_of_not_name (h : n.type ≠ "identifier") :
    calleeParts source n = if n.type = "member_expression" then
      (n.child? "property").bind fun property =>
        if Symbol.isMemberName property then
          ((n.child? "object").bind (calleeParts source)).map (· ++ [property.text source])
        else none
      else none := by
  cases n with
  | mk l cs =>
    have hl : l.type ≠ "identifier" := h
    rw [calleeParts, if_neg hl, objectParts_eq, Node.child?, Node.child?]
    cases hproperty : cs.find? (·.field == some "property") with
    | none => simp [Node.children, hproperty]
    | some property => simp [Node.type, Node.label, Node.children, hproperty]

theorem calleeParts_of_chain (h : Chain source callee parts) :
    calleeParts source callee = some parts := by
  induction h with
  | name h => exact calleeParts_of_name h
  | access htype hproperty hname hobject hchain ih =>
    rw [calleeParts_of_not_name (by simp [htype]), if_pos htype, hproperty, Option.bind_some,
      if_pos hname, hobject, Option.bind_some, ih, Option.map_some]

theorem calleeParts_of_other {m : Node} (hm : Along callee m) (hname : m.type ≠ "identifier")
    (haccess : ¬ IsAccess m) : calleeParts source callee = none := by
  induction hm with
  | self n =>
    rw [calleeParts_of_not_name hname]
    -- Something is missing for an access: the type, a plain property or the object.
    by_cases htype : n.type = "member_expression"
    · cases hproperty : n.child? "property" with
      | none => simp
      | some property =>
        cases hobject : n.child? "object" with
        | none => simp
        | some object =>
          have hplain : ¬ Symbol.isMemberName property = true := fun hplain =>
            haccess ⟨htype, ⟨property, hproperty, hplain⟩, ⟨object, hobject⟩⟩
          simp [hplain]
    · rw [if_neg htype]
  | object hne hobject _ ih =>
    rw [calleeParts_of_not_name hne, hobject, Option.bind_some, ih hname haccess]
    simp

mutual
/-- A callee is a chain, or something along it is neither a name nor an access. -/
theorem chain_or_other (source : Bytes) (n : Node) : (∃ parts, Chain source n parts) ∨
    ∃ m, Along n m ∧ m.type ≠ "identifier" ∧ ¬ IsAccess m := by
  cases n with
  | mk l cs =>
    by_cases hname : (Node.mk l cs).type = "identifier"
    · exact .inl ⟨_, .name hname⟩
    by_cases haccess : IsAccess (.mk l cs)
    · obtain ⟨htype, ⟨property, hproperty, hplain⟩, object, hobject⟩ := haccess
      rcases object_chain_or_other source cs hobject with ⟨parts, hchain⟩ | ⟨m, hm, hother⟩
      · exact .inl ⟨_, .access htype hproperty hplain hobject hchain⟩
      · exact .inr ⟨m, .object hname hobject hm, hother⟩
    · exact .inr ⟨_, .self _, hname, haccess⟩

theorem object_chain_or_other (source : Bytes) (ns : List Node) {object : Node}
    (h : ns.find? (·.field == some "object") = some object) : (∃ parts, Chain source object parts) ∨
    ∃ m, Along object m ∧ m.type ≠ "identifier" ∧ ¬ IsAccess m := by
  cases ns with
  | nil => cases h
  | cons n rest =>
    rw [List.find?_cons] at h
    split at h
    · cases h
      exact chain_or_other source object
    · exact object_chain_or_other source rest h
end

theorem calleeParts_eq_some_iff : calleeParts source callee = some parts ↔
    Chain source callee parts := by
  refine ⟨fun h => ?_, calleeParts_of_chain⟩
  rcases chain_or_other source callee with ⟨parts', hchain⟩ | ⟨m, hm, hname, haccess⟩
  · rw [calleeParts_of_chain hchain, Option.some.injEq] at h
    exact h ▸ hchain
  · rw [calleeParts_of_other hm hname haccess] at h
    cases h

theorem calleePath?_eq_none_iff : calleePath? source callee = none ↔
    ∃ m, Along callee m ∧ m.type ≠ "identifier" ∧ ¬ IsAccess m := by
  rw [calleePath?, Option.map_eq_none_iff]
  refine ⟨fun h => ?_, fun ⟨m, hm, hname, haccess⟩ => calleeParts_of_other hm hname haccess⟩
  refine (chain_or_other source callee).resolve_left fun ⟨parts, hchain⟩ => ?_
  rw [calleeParts_of_chain hchain] at h
  cases h

theorem Chain.ne_nil (h : Chain source callee parts) : parts ≠ [] := by
  cases h <;> simp

/-! ## Forms -/

/-- The parts of a form, cut at its dots, are the last of the names. -/
def Ends (form : String) (parts : List String) : Prop :=
  form.toList.splitOn '.' <:+ parts.map String.toList

instance (form : String) (parts : List String) : Decidable (Ends form parts) :=
  inferInstanceAs (Decidable (_ <:+ _))

theorem splitOn_append_dot (a b : List Char) :
    (a ++ '.' :: b).splitOn '.' = a.splitOn '.' ++ b.splitOn '.' := by
  simp only [List.splitOn_eq_splitOnP]
  exact List.splitOnP_append_cons a b rfl

theorem intercalate_append_dot {a b : List (List Char)} (ha : a ≠ []) (hb : b ≠ []) :
    ['.'].intercalate (a ++ b) = ['.'].intercalate a ++ '.' :: ['.'].intercalate b := by
  obtain ⟨y, ys, rfl⟩ := List.exists_cons_of_ne_nil hb
  induction a with
  | nil => exact absurd rfl ha
  | cons x xs ih =>
    cases xs with
    | nil => simp [List.intercalate_cons_cons, List.intercalate_singleton]
    | cons x' xs =>
      rw [List.cons_append, List.cons_append, List.intercalate_cons_cons,
        List.intercalate_cons_cons, ← List.cons_append, ih (by simp)]
      simp

theorem matchesForm_iff (hparts : parts ≠ []) (hdots : ∀ name ∈ parts, '.' ∉ name.toList) :
    matchesForm (".".intercalate parts) form = true ↔ Ends form parts := by
  have hdot : ".".toList = ['.'] := rfl
  rw [Ends, ← Path.splitOn_intercalate hdot hdots hparts, matchesForm, Bool.or_eq_true, beq_iff_eq,
    List.isSuffixOf_iff_suffix]
  generalize ".".intercalate parts = path
  constructor
  · rintro (rfl | ⟨before, hbefore⟩)
    · exact List.suffix_rfl
    · rw [← hbefore, splitOn_append_dot]
      exact List.suffix_append _ _
  · rintro ⟨before, hbefore⟩
    -- A cut at dots is undone by joining with dots.
    have hform : ['.'].intercalate (form.toList.splitOn '.') = form.toList :=
      List.intercalate_splitOn '.'
    have hpath : path.toList = ['.'].intercalate (before ++ form.toList.splitOn '.') := by
      rw [hbefore, List.intercalate_splitOn]
    by_cases hnil : before = []
    · left
      rw [hnil, List.nil_append, hform] at hpath
      exact String.toList_inj.1 hpath
    · right
      rw [hpath, intercalate_append_dot hnil (List.splitOn_ne_nil _ _), hform]
      exact List.suffix_append _ _

theorem role?_eq (hparts : parts ≠ []) (hdots : ∀ name ∈ parts, '.' ∉ name.toList) :
    role? forms (".".intercalate parts) =
      if ∃ form ∈ forms.handlers, Ends form parts then some .defined
      else if ∃ form ∈ forms.invokers, Ends form parts then some .invoked
      else none := by
  simp only [role?, List.any_eq_true, matchesForm_iff hparts hdots]

/-- A callee that is a chain of accesses has the role of the forms whose parts end its names, those
that define a channel first; any other callee has no name. -/
theorem roles_follow_suffixes (forms : ChannelForms) (source : Bytes) (callee : Node) :
    (∀ parts, Chain source callee parts → (∀ name ∈ parts, '.' ∉ name.toList) →
      ∃ path, calleePath? source callee = some path ∧ role? forms path =
        if ∃ form ∈ forms.handlers, Ends form parts then some .defined
        else if ∃ form ∈ forms.invokers, Ends form parts then some .invoked
        else none) ∧
    (calleePath? source callee = none ↔
      ∃ m, Along callee m ∧ m.type ≠ "identifier" ∧ ¬ IsAccess m) := by
  refine ⟨fun parts hchain hdots => ?_, calleePath?_eq_none_iff⟩
  refine ⟨".".intercalate parts, ?_, role?_eq hchain.ne_nil hdots⟩
  rw [calleePath?, calleeParts_eq_some_iff.2 hchain, Option.map_some]

namespace Bridge

def text : Bytes := Utf8.encode "window.electronAPI.invoke"

def leaf (type : String) (field : Option String) (start stop : Nat) : Node :=
  .mk ⟨type, field, true, false, start, stop⟩ []

def access (field : Option String) (stop : Nat) (object property : Node) : Node :=
  .mk ⟨"member_expression", field, true, false, 0, stop⟩ [object, property]

def window : Node := leaf "identifier" (some "object") 0 6

def electron : Node := leaf "property_identifier" (some "property") 7 18

def invoke : Node := leaf "property_identifier" (some "property") 19 25

/-- The tree of `window.electronAPI.invoke`. -/
def bridge : Node :=
  access (some "function") 25 (access (some "object") 18 window electron) invoke

theorem chain_bridge : Chain text bridge ["window", "electronAPI", "invoke"] := by
  have hnames : ["window", "electronAPI", "invoke"] =
      [window.text text] ++ [electron.text text] ++ [invoke.text text] := by decide +kernel
  rw [hnames]
  exact .access rfl rfl rfl rfl (.access rfl rfl rfl rfl (.name rfl))

end Bridge

open Bridge in
theorem roles_follow_suffixes_sample :
    Chain text bridge ["window", "electronAPI", "invoke"] ∧
    (∀ name ∈ ["window", "electronAPI", "invoke"], '.' ∉ name.toList) ∧
    ∃ path, calleePath? text bridge = some path ∧ role? {} path = some .invoked := by
  have hdots : ∀ name ∈ ["window", "electronAPI", "invoke"], '.' ∉ name.toList := by decide
  obtain ⟨path, hpath, hrole⟩ := (roles_follow_suffixes {} text bridge).1 _ chain_bridge hdots
  refine ⟨chain_bridge, hdots, path, hpath, ?_⟩
  rw [hrole]
  decide +kernel

end Deadwood.Channel
