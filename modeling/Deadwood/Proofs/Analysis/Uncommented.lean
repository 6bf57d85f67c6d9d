import Deadwood.Proofs.Analysis.Argument
import Deadwood.Proofs.Analysis.Symbol
import Deadwood.Proofs.Removal.WellFormed

/-!
Channel facts and import bindings of trees without the comments in their argument lists. Nothing is
gained or lost with a comment that stands behind the first argument of its list.
-/
namespace Deadwood

open Channel (calleeParts calleePath? fact? facts firstArgument? literal? objectParts Reports)
open Node (uncommented uncommentedAll)

variable {source : Bytes} {call n tree : Node} {forms : ChannelForms} {file : String}

namespace Channel

theorem literal?_uncommented (n : Node) : literal? source n.uncommented = literal? source n := by
  rw [literal?, Node.kind_uncommented, Node.text_uncommented, literal?]

theorem firstArgument?_uncommented (h : call.opensWithComment = false) :
    firstArgument? call.uncommented = (firstArgument? call).map uncommented := by
  rw [Node.opensWithComment] at h
  rw [firstArgument?, Node.child?_uncommented]
  rw [firstArgument?] at h ⊢
  cases hlist : call.child? "arguments" with
  | none => rfl
  | some list =>
    rw [hlist, Option.bind_some] at h
    rw [Option.map_some, Option.bind_some, Option.bind_some, Node.namedChildren_uncommented,
      List.head?_map]
    cases hnamed : list.namedChildren with
    | nil => rfl
    | cons first rest =>
      -- What heads the list is no comment, so it heads the list without comments too.
      have hstays : list.staysIn first = true := by
        by_contra hgone
        rw [Bool.not_eq_true] at hgone
        simp [hnamed, Node.kind_of_isRemark (Node.isRemark_of_staysIn hgone)] at h
      rw [List.filter_cons_of_pos hstays]
      rfl

mutual
theorem calleeParts_uncommented (n : Node) :
    calleeParts source n.uncommented = calleeParts source n := by
  cases n with
  | mk l cs =>
    have htext := Node.text_uncommented (.mk l cs) source
    have hproperty := Node.child?_uncommented (.mk l cs) "property"
    rw [uncommented] at htext hproperty ⊢
    rw [Node.child?, Node.child?, Node.children, Node.children] at hproperty
    rw [calleeParts, calleeParts, htext, hproperty, objectParts_uncommented]
    cases cs.find? (·.field == some "property") with
    | none => rfl
    | some property =>
      dsimp only [Option.map_some]
      rw [Symbol.isMemberName, Node.type_uncommented, Node.text_uncommented, Symbol.isMemberName]

theorem objectParts_uncommented (inList : Bool) (ns : List Node) :
    objectParts source (uncommentedAll inList ns) = objectParts source ns := by
  cases ns with
  | nil => rfl
  | cons n rest =>
    rw [uncommentedAll, objectParts]
    split
    · next hn =>
      rw [Bool.and_eq_true] at hn
      rw [objectParts_uncommented inList rest, Node.field_of_isRemark hn.2]
      rfl
    · rw [objectParts, Node.field_uncommented, calleeParts_uncommented n,
        objectParts_uncommented inList rest]
end

theorem calleePath?_uncommented (callee : Node) :
    calleePath? source callee.uncommented = calleePath? source callee := by
  rw [calleePath?, calleeParts_uncommented, calleePath?]

theorem fact?_uncommented (h : call.kind = .call → call.opensWithComment = false) :
    fact? forms source file call.uncommented = fact? forms source file call := by
  unfold fact?
  rw [Node.kind_uncommented]
  by_cases hk : call.kind = .call
  · rw [Node.line_uncommented, Node.child?_uncommented, firstArgument?_uncommented (h hk)]
    simp only [Option.bind_map, Function.comp_def, calleePath?_uncommented, literal?_uncommented]
  · simp only [guard, if_neg hk]
    rfl

end Channel

theorem requireSource?_uncommented (h : call.kind = .call → call.opensWithComment = false) :
    requireSource? source call.uncommented = requireSource? source call := by
  rw [requireSource?_eq, requireSource?_eq, Node.kind_uncommented, Node.child?_uncommented]
  by_cases hk : call.kind = .call
  · rw [Channel.firstArgument?_uncommented (h hk), Option.map_map]
    simp only [Option.bind_map, Function.comp_def, Node.text_uncommented,
      Channel.literal?_uncommented]
  · rw [if_neg fun hcall => hk hcall.1, if_neg fun hcall => hk hcall.1]

/-- In no call does a comment stand before the arguments. -/
def Node.CommentsFollow (tree : Node) : Prop :=
  ∀ call ∈ tree.preorder, call.kind = .call → call.opensWithComment = false

theorem Node.mem_preorder_of_child? {c : Node} {field : String} (hn : n ∈ tree.preorder)
    (hc : n.child? field = some c) : c ∈ tree.preorder := by
  rw [← Place.preorder_nodes, List.mem_map] at hn ⊢
  obtain ⟨p, hp, rfl⟩ := hn
  rw [← Place.child?_node, Option.map_eq_some_iff] at hc
  obtain ⟨q, hq, rfl⟩ := hc
  exact ⟨q, Place.mem_preorder.2 ((Place.mem_preorder.1 hp).of_mem_children
    (Place.mem_children_of_child? hq)), rfl⟩

namespace Place

variable {p q : Place} {α : Type} {f : Place → List α}

/-- The node of a place without the comments in its argument lists. -/
def bare (p : Place) : Node := p.node.uncommented

@[simp] theorem type_bare (p : Place) : p.bare.type = p.node.type := Node.type_uncommented p.node

@[simp] theorem kind_bare (p : Place) : p.bare.kind = p.node.kind := Node.kind_uncommented p.node

theorem type_eq_of_bare (h : p.bare = q.bare) : p.node.type = q.node.type := by
  rw [← type_bare, h, type_bare]

theorem kind_eq_of_bare (h : p.bare = q.bare) : p.node.kind = q.node.kind := by
  rw [← kind_bare, h, kind_bare]

theorem bare_root_uncommented (n : Node) : (root n.uncommented).bare = (root n).bare :=
  Node.uncommented_uncommented n

theorem map_bare_child? (p : Place) (field : String) :
    (p.child? field).map bare = p.bare.child? field := by
  rw [bare, Node.child?_uncommented, ← child?_node, Option.map_map]
  rfl

theorem map_bare_namedChildren (p : Place) :
    (p.namedChildren.filter (p.node.staysIn ·.node)).map bare = p.bare.namedChildren := by
  rw [bare, Node.namedChildren_uncommented, ← namedChildren_nodes, List.filter_map, List.map_map]
  rfl

/-- What is collected from the named children is the same where they are but for comments. -/
theorem flatMap_namedChildren_of_bare (hf : ∀ c d : Place, c.bare = d.bare → f c = f d)
    (hremark : ∀ c : Place, c.node.isRemark = true → f c = []) (h : p.bare = q.bare) :
    p.namedChildren.flatMap f = q.namedChildren.flatMap f := by
  have hbare : ∀ r : Place,
      r.namedChildren.flatMap f = r.bare.namedChildren.flatMap (f <| root ·) := by
    intro r
    rw [← map_bare_namedChildren, List.flatMap_map]
    induction r.namedChildren with
    | nil => rfl
    | cons c rest ih =>
      rw [List.filter_cons, List.flatMap_cons, ih]
      cases hstays : r.node.staysIn c.node with
      | true =>
        rw [if_pos rfl, List.flatMap_cons, hf c (root c.bare) (Node.uncommented_uncommented _).symm]
      | false =>
        rw [hremark c (Node.isRemark_of_staysIn hstays)]
        rfl
  rw [hbare, hbare, h]

theorem map_bare_filter (p : Place) {type : String} (htype : type ≠ "comment") :
    (p.namedChildren.filter (·.node.type = type)).map bare =
      p.bare.namedChildren.filter (·.type = type) := by
  rw [bare, Node.filter_uncommented (fun c => by rw [Node.type_uncommented]),
    ← namedChildren_nodes, List.filter_map, List.map_map]
  · rfl
  · intro c hc
    rw [Node.type_of_isRemark hc]
    exact decide_eq_false htype.symm

end Place

theorem cases_of_map_eq_map {α β : Type} {f : α → β} {o o' : Option α} (h : o.map f = o'.map f) :
    o = none ∧ o' = none ∨ ∃ a a', o = some a ∧ o' = some a' ∧ f a = f a' := by
  cases o with
  | none => exact .inl ⟨rfl, Option.map_eq_none_iff.1 h.symm⟩
  | some a =>
    obtain ⟨a', ha', hf⟩ := Option.map_eq_some_iff.1 h.symm
    exact .inr ⟨a, a', rfl, ha', hf.symm⟩

namespace Binding

variable {p q : Place}

def bareName (b : Binding) : Node := b.name.bare

/-- The name that a child gives, if it has the right type. -/
theorem bareName_child? (p : Place) (field type : String) :
    (do
      let c ← p.child? field
      guard (c.node.type = type)
      return (⟨c, p⟩ : Binding) : Option Binding).map bareName =
    (p.bare.child? field).filter (·.type = type) := by
  rw [← Place.map_bare_child?]
  cases p.child? field with
  | none => rfl
  | some c =>
    by_cases htype : c.node.type = type
    · simp [guard, htype, Option.filter, bareName]
    · simp [guard, htype, Option.filter]

/-- Bindings that named children give have the same names where the children are the same but for
comments. -/
theorem bareName_filterMap {give : Place → Option Binding}
    (hgive : ∀ c d : Place, c.bare = d.bare → (give c).map bareName = (give d).map bareName)
    (hremark : ∀ c : Place, c.node.isRemark = true → (give c).map bareName = none)
    (h : p.bare = q.bare) : (p.namedChildren.filterMap give).map bareName =
      (q.namedChildren.filterMap give).map bareName := by
  rw [List.map_filterMap, List.map_filterMap, List.filterMap_eq_flatMap_toList,
    List.filterMap_eq_flatMap_toList]
  apply Place.flatMap_namedChildren_of_bare ?_ ?_ h
  · intro c d hcd
    rw [hgive c d hcd]
  · intro c hc
    rw [hremark c hc]
    rfl

theorem bareName_ofProperty? (h : p.bare = q.bare) :
    (ofProperty? p).map bareName = (ofProperty? q).map bareName := by
  unfold ofProperty?
  rw [Place.type_eq_of_bare h]
  split
  · exact congrArg some h
  · rw [bareName_child?, bareName_child?, h]
  · rw [bareName_child?, bareName_child?, h]
  · rfl

theorem bareName_ofPattern (h : p.bare = q.bare) :
    (ofPattern p).map bareName = (ofPattern q).map bareName := by
  apply bareName_filterMap ?_ ?_ h
  · intro c d hcd
    exact bareName_ofProperty? hcd
  · intro c hc
    rw [ofProperty?, Node.type_of_isRemark hc]
    rfl

theorem bareName_ofSpecifier? (p : Place) : (ofSpecifier? p).map bareName =
    if p.bare.type = "import_specifier" then (p.bare.child? "alias").or (p.bare.child? "name")
    else none := by
  unfold ofSpecifier?
  rw [Place.type_bare, ← Place.map_bare_child?, ← Place.map_bare_child?, ← Option.map_or]
  by_cases htype : p.node.type = "import_specifier"
  · rw [(Option.guard_eq_some' ()).2 htype, if_pos htype]
    cases (p.child? "alias").or (p.child? "name") <;> rfl
  · simp [guard, htype]

theorem bareName_ofClausePart (h : p.bare = q.bare) :
    (ofClausePart p).map bareName = (ofClausePart q).map bareName := by
  unfold ofClausePart
  rw [Place.type_eq_of_bare h]
  split
  · exact congrArg (fun n => [n]) h
  · have hnames : ∀ r : Place, ((r.namedChildren.filter (·.node.type = "identifier")).map
        fun name => (⟨name, r⟩ : Binding)).map bareName =
        r.bare.namedChildren.filter (·.type = "identifier") := by
      intro r
      rw [← Place.map_bare_filter r (by decide), List.map_map]
      rfl
    rw [hnames, hnames, h]
  · apply bareName_filterMap ?_ ?_ h
    · intro c d hcd
      rw [bareName_ofSpecifier?, bareName_ofSpecifier?, hcd]
    · intro c hc
      rw [bareName_ofSpecifier?, Place.type_bare, Node.type_of_isRemark hc]
      rfl
  · rfl

theorem bareName_ofImport (h : p.bare = q.bare) :
    (ofImport p).map bareName = (ofImport q).map bareName := by
  have hclause : (clause? p).map Place.bare = (clause? q).map Place.bare := by
    have hbare : ∀ r : Place, (clause? r).map Place.bare =
        (r.bare.namedChildren.filter (·.type = "import_clause")).head? := by
      intro r
      rw [← Place.map_bare_filter r (by decide), List.head?_map, clause?, List.head?_filter]
    rw [hbare, hbare, h]
  unfold ofImport
  rcases cases_of_map_eq_map hclause with ⟨hp, hq⟩ | ⟨c, d, hp, hq, hcd⟩
  · rw [hp, hq]
  · rw [hp, hq]
    dsimp only
    rw [List.map_flatMap, List.map_flatMap]
    apply Place.flatMap_namedChildren_of_bare ?_ ?_ hcd
    · intro part part' hpart
      exact bareName_ofClausePart hpart
    · intro part hpart
      rw [ofClausePart, Node.type_of_isRemark hpart]
      rfl

end Binding

namespace Symbol

variable {p q : Place}

/-- The import bindings of a place, by their names. -/
def importNames (source : Bytes) (p : Place) : List Node :=
  ((definitions source p).filter (·.2 = .importBinding)).map (·.1.bare)

theorem importNames_importSymbols (bindings : List Binding) :
    ((importSymbols bindings).filter (·.2 = .importBinding)).map (·.1.bare) =
      bindings.map Binding.bareName := by
  rw [List.filter_eq_self.2 fun b hb => decide_eq_true (kind_of_mem_importSymbols hb),
    importSymbols, List.map_map]
  rfl

theorem importNames_of_declarator (h : p.bare = q.bare)
    (hk : p.node.kind = .variableDeclarator)
    (hrequire : ∀ value value', p.node.child? "value" = some value →
      q.node.child? "value" = some value' →
      requireSource? source value = requireSource? source value') :
    importNames source p = importNames source q := by
  have hname : (p.child? "name").map Place.bare = (q.child? "name").map Place.bare := by
    rw [Place.map_bare_child?, Place.map_bare_child?, h]
  have hvalue : (p.node.child? "value").map uncommented =
      (q.node.child? "value").map uncommented := by
    rw [← Node.child?_uncommented, ← Node.child?_uncommented]
    exact congrArg (Node.child? · "value") h
  unfold importNames
  rw [definitions_of_declarator hk, definitions_of_declarator (Place.kind_eq_of_bare h ▸ hk)]
  rcases cases_of_map_eq_map hname with ⟨hp, hq⟩ | ⟨name, name', hp, hq, hname⟩
  · rw [hp, hq]
  rcases cases_of_map_eq_map hvalue with ⟨hpv, hqv⟩ | ⟨value, value', hpv, hqv, hvalue⟩
  · rw [hp, hq, hpv, hqv]
  have hkind : value.kind = value'.kind := by
    rw [← Node.kind_uncommented, hvalue, Node.kind_uncommented]
  rw [hp, hq, hpv, hqv]
  dsimp only
  rw [hkind, Place.type_eq_of_bare hname, hrequire value value' hpv hqv]
  split
  · rfl
  · split
    · rfl
    · split
      · exact congrArg (fun n => [n]) hname
      · split
        · rw [importNames_importSymbols, importNames_importSymbols,
            Binding.bareName_ofPattern hname]
        · rfl

/-- Only declarators and import statements have import bindings. -/
theorem importNames_of_kind (hd : p.node.kind ≠ .variableDeclarator)
    (hi : p.node.kind ≠ .importStatement) : importNames source p = [] := by
  have hnone : ∀ b ∈ definitions source p, b.2 ≠ .importBinding := by
    intro b hb
    unfold definitions at hb
    split at hb
    · simp only [Option.mem_toList, Option.map_eq_some_iff] at hb
      obtain ⟨name, -, rfl⟩ := hb
      exact fun h => nomatch h
    · next hk => exact absurd hk hd
    · split at hb
      · split at hb
        · split at hb
          · rw [List.mem_singleton.1 hb]
            exact fun h => nomatch h
          · cases hb
        · cases hb
      · cases hb
    · next hk => exact absurd hk hi
    · cases hb
  rw [importNames, List.filter_eq_nil_iff.2 fun b hb => by simpa using hnone b hb]
  rfl

theorem importNames_of_bare (h : p.bare = q.bare)
    (hrequire : ∀ value value', p.node.child? "value" = some value →
      q.node.child? "value" = some value' →
      requireSource? source value = requireSource? source value') :
    importNames source p = importNames source q := by
  have hkind := Place.kind_eq_of_bare h
  by_cases hd : p.node.kind = .variableDeclarator
  · exact importNames_of_declarator h hd hrequire
  · by_cases hi : p.node.kind = .importStatement
    · have hnames : ∀ r : Place, r.node.kind = .importStatement →
          importNames source r = (Binding.ofImport r).map Binding.bareName := by
        intro r hr
        rw [← importNames_importSymbols, importNames, definitions, hr]
        rfl
      rw [hnames p hi, hnames q (hkind ▸ hi), Binding.bareName_ofImport h]
    · rw [importNames_of_kind hd hi, importNames_of_kind (hkind ▸ hd) (hkind ▸ hi)]

def imports (source : Bytes) (file : String) (tree : Node) : List Symbol :=
  (extract source file tree).filter (·.kind = .importBinding)

def ofImportName (source : Bytes) (file : String) (n : Node) : Symbol :=
  { name := n.text source, file, line := n.line source, kind := .importBinding }

/-- Import bindings are read off nodes, wherever these stand. -/
theorem imports_eq_flatMap (source : Bytes) (file : String) (tree : Node) :
    imports source file tree = tree.preorder.flatMap fun n =>
      (importNames source (Place.root n)).map (ofImportName source file) := by
  have hplace : ∀ p : Place, ((definitions source p).map (ofDefinition source file)).filter
      (·.kind = .importBinding) =
      (importNames source (Place.root p.node)).map (ofImportName source file) := by
    intro p
    have hroot : importNames source (Place.root p.node) = importNames source p :=
      importNames_of_bare rfl fun value value' hp hq => by
        rw [Option.some.inj (hp.symm.trans hq)]
    rw [hroot, importNames, List.filter_map, List.map_map]
    apply List.map_congr_left
    intro d hd
    have hkind : d.2 = .importBinding := of_decide_eq_true (List.mem_filter.1 hd).2
    rw [Function.comp_apply, ofImportName, ofDefinition, hkind, Place.bare, Node.text_uncommented,
      Node.line_uncommented]
  rw [imports, extract, definitionsOf, List.map_flatMap, List.filter_flatMap]
  simp only [hplace]
  rw [← Place.preorder_nodes, List.flatMap_map]

/-- Without a comment in front of arguments, imports are the same without the comments. -/
theorem imports_uncommented (h : tree.CommentsFollow) :
    imports source file tree.uncommented = imports source file tree := by
  rw [imports_eq_flatMap, imports_eq_flatMap]
  apply Node.flatMap_preorder_uncommented
  · intro c hc
    have hk := Node.kind_of_isRemark hc
    rw [importNames_of_kind (by simp [Place.root, hk]) (by simp [Place.root, hk])]
    rfl
  · intro c hc
    rw [importNames_of_bare (Place.bare_root_uncommented c)]
    intro value value' hp hq
    rw [Place.root, Node.child?_uncommented] at hp
    rw [Place.root] at hq
    rw [hq] at hp
    rw [← Option.some.inj hp]
    exact requireSource?_uncommented (h value' (Node.mem_preorder_of_child? hc hq))

end Symbol

theorem Channel.facts_uncommented (h : tree.CommentsFollow) :
    facts forms source file tree.uncommented = facts forms source file tree := by
  rw [facts, facts, List.filterMap_eq_flatMap_toList, List.filterMap_eq_flatMap_toList]
  apply Node.flatMap_preorder_uncommented
  · intro c hc
    rw [fact?, Node.kind_of_isRemark hc]
    rfl
  · intro c hc
    rw [fact?_uncommented (h c hc)]

/-- A comment hides a channel or a required module only in front of the first argument. Every other
call with one of the forms gives its fact, every other call of `require` its module, and what
comments stand behind first arguments changes neither facts nor import bindings. -/
theorem Channel.comments_hide_only_in_front (forms : ChannelForms) (source : Bytes)
    (file : String) :
    (∃ report : Node → Option ChannelFact,
      (∀ tree, facts forms source file tree = tree.preorder.filterMap report) ∧
      ∀ call fact, report call = some fact ↔
        Reports forms source file call fact ∧ call.opensWithComment = false) ∧
    (∀ call name, requireSource? source call = some name ↔
      Requires source call name ∧ call.opensWithComment = false) ∧
    ∀ tree tree' : Node, tree.uncommented = tree'.uncommented →
      tree.CommentsFollow → tree'.CommentsFollow →
      facts forms source file tree = facts forms source file tree' ∧
      Symbol.imports source file tree = Symbol.imports source file tree' := by
  refine ⟨⟨fact? forms source file, fun tree => rfl, fun call fact => fact?_eq_some_iff⟩,
    fun call name => requireSource?_eq_some_iff, ?_⟩
  intro tree tree' hbare h h'
  constructor
  · rw [← facts_uncommented h, hbare, facts_uncommented h']
  · rw [← Symbol.imports_uncommented h, hbare, Symbol.imports_uncommented h']

namespace Sample

def handling (arguments : List Node) : Node :=
  node "call_expression" none 0 33 [
    node "member_expression" "function" 0 14 [node "identifier" "object" 0 7 [], token "." 7 8,
      node "property_identifier" "property" 8 14 []],
    node "arguments" "arguments" 14 33 arguments]

def requiring (arguments : List Node) : Node :=
  node "call_expression" "value" 45 65 [node "identifier" "function" 45 52 [],
    node "arguments" "arguments" 52 65 arguments]

/-- The handler of a channel and a required module, by the argument lists of the two calls. -/
def calls (handled required : List Node) : Node :=
  node "program" none 0 67 [
    node "expression_statement" none 0 34 [handling handled, token ";" 33 34],
    node "lexical_declaration" none 35 66 [token "const" 35 40,
      node "variable_declarator" none 41 65 [node "identifier" "name" 41 42 [], token "=" 43 44,
        requiring required],
      token ";" 65 66]]

def comment (start stop : Nat) : Node := node "comment" none start stop []

def string (start stop : Nat) : Node :=
  node "string" none start stop [token "'" start (start + 1),
    node "string_fragment" none (start + 1) (stop - 1) [], token "'" (stop - 1) stop]

def behindSource : Bytes :=
  Utf8.encode "ipcMain.handle('ping' /* c */, f);\nconst a = require('m' /* c */);\n"

def behind : Node :=
  calls [token "(" 14 15, string 15 21, comment 22 29, token "," 29 30,
      node "identifier" none 31 32 [], token ")" 32 33]
    [token "(" 52 53, string 53 56, comment 57 64, token ")" 64 65]

def withoutComments : Node :=
  calls [token "(" 14 15, string 15 21, token "," 29 30, node "identifier" none 31 32 [],
      token ")" 32 33]
    [token "(" 52 53, string 53 56, token ")" 64 65]

def inFrontSource : Bytes :=
  Utf8.encode "ipcMain.handle(/* c */ 'ping', f);\nconst a = require(/* c */ 'm');\n"

def inFrontHandled : List Node :=
  [token "(" 14 15, comment 15 22, string 23 29, token "," 29 30, node "identifier" none 31 32 [],
    token ")" 32 33]

def inFrontRequired : List Node :=
  [token "(" 52 53, comment 53 60, string 61 64, token ")" 64 65]

def inFront : Node := calls inFrontHandled inFrontRequired

end Sample

instance (tree : Node) : Decidable tree.CommentsFollow :=
  inferInstanceAs (Decidable (∀ call ∈ tree.preorder, _ → _))

theorem Channel.comments_hide_only_in_front_sample :
    Sample.behind.uncommented = Sample.withoutComments.uncommented ∧
    Sample.behind.CommentsFollow ∧ Sample.withoutComments.CommentsFollow ∧
    facts {} Sample.behindSource "a.js" Sample.behind = [⟨"ping", "a.js", 1, .defined⟩] ∧
    facts {} Sample.behindSource "a.js" Sample.withoutComments = [⟨"ping", "a.js", 1, .defined⟩] ∧
    Symbol.imports Sample.behindSource "a.js" Sample.behind =
      [⟨"a", "a.js", 2, .importBinding⟩] ∧
    Symbol.imports Sample.behindSource "a.js" Sample.withoutComments =
      [⟨"a", "a.js", 2, .importBinding⟩] := by
  have hbare : Sample.behind.uncommented = Sample.withoutComments.uncommented := rfl
  have hbehind : Sample.behind.CommentsFollow := by decide +kernel
  have hwithout : Sample.withoutComments.CommentsFollow := by decide +kernel
  have hfacts : facts {} Sample.behindSource "a.js" Sample.behind =
      [⟨"ping", "a.js", 1, .defined⟩] := by decide +kernel
  have himports : Symbol.imports Sample.behindSource "a.js" Sample.behind =
      [⟨"a", "a.js", 2, .importBinding⟩] := by decide +kernel
  obtain ⟨hf, hi⟩ := (comments_hide_only_in_front {} Sample.behindSource "a.js").2.2 _ _ hbare
    hbehind hwithout
  exact ⟨hbare, hbehind, hwithout, hfacts, hf ▸ hfacts, himports, hi ▸ himports⟩

/-- A comment in front of the first argument hides the channel and the required module. -/
theorem Channel.comment_in_front_hides :
    (Sample.handling Sample.inFrontHandled ∈ Sample.inFront.preorder ∧
      Reports {} Sample.inFrontSource "a.js" (Sample.handling Sample.inFrontHandled)
        ⟨"ping", "a.js", 1, .defined⟩ ∧
      facts {} Sample.inFrontSource "a.js" Sample.inFront = []) ∧
    (Requires Sample.inFrontSource (Sample.requiring Sample.inFrontRequired) "m" ∧
      requireSource? Sample.inFrontSource (Sample.requiring Sample.inFrontRequired) = none ∧
      Symbol.imports Sample.inFrontSource "a.js" Sample.inFront = []) := by
  have hreports : Reports {} Sample.inFrontSource "a.js" (Sample.handling Sample.inFrontHandled)
      ⟨"ping", "a.js", 1, .defined⟩ := by
    refine ⟨rfl, ⟨"ipcMain.handle", ?_, ?_⟩, ⟨Sample.string 23 29, rfl, rfl, ?_⟩, rfl, ?_⟩ <;>
      decide +kernel
  have hrequires : Requires Sample.inFrontSource (Sample.requiring Sample.inFrontRequired) "m" := by
    refine ⟨rfl, ?_, ⟨Sample.string 61 64, rfl, rfl, ?_⟩⟩ <;> decide +kernel
  refine ⟨⟨List.mem_of_getElem? (i := 2) rfl, hreports, ?_⟩, hrequires, ?_, ?_⟩ <;> decide +kernel

end Deadwood
