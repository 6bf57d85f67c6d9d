import Deadwood.Proofs.Removal.Rebuild

/-!
Import clauses that keep something. An import of which some but not all names go has one edit, for
its clause, and the new clause lists what stays: the default name, the namespace, the names in
braces. The comments between them are taken for parts that stay (`clause_keeps_bindings`).
-/
namespace Deadwood.Plan

section Clause

variable {t : Targets} {source : Bytes} {tree : Node} {p clause part : Place}

/-- The parts of an import clause: at most a default name, a namespace and a list of names, in this
order, and anywhere between them comments. -/
structure ClauseParts (clause : Place) where
  default? : Option Place
  star? : Option Place
  list? : Option Place
  default_type : ∀ q ∈ default?, q.node.type = "identifier"
  star_type : ∀ q ∈ star?, q.node.type = "namespace_import"
  list_type : ∀ q ∈ list?, q.node.type = "named_imports"
  namedChildren_eq : clause.namedChildren.filter (·.node.type ≠ "comment") =
    default?.toList ++ star?.toList ++ list?.toList

/-- The specifiers of a list whose names stay. -/
def keptSpecifiers (t : Targets) (source : Bytes) (list : Place) : List Place :=
  list.namedChildren.filter fun s =>
    s.node.type = "import_specifier" && spares t source (Binding.ofSpecifier? s).toList

def keptList? (t : Targets) (source : Bytes) (list : Place) : Option String :=
  if (keptSpecifiers t source list).isEmpty then none
  else some (braced ((keptSpecifiers t source list).map (·.node.text source)))

namespace ClauseParts

/-- What stays of a clause. -/
def kept (parts : ClauseParts clause) (t : Targets) (source : Bytes) : List String :=
  ((parts.default?.toList ++ parts.star?.toList).filter
      fun q => spares t source (Binding.ofClausePart q)).map (·.node.text source) ++
    parts.list?.toList.filterMap (keptList? t source)

end ClauseParts

/-- The comments right in a clause. -/
def clauseComments (source : Bytes) (clause : Place) : List String :=
  (clause.namedChildren.filter (·.node.type = "comment")).map (·.node.text source)

/-- A binding belongs to the part of the clause at or below which its own part is. -/
theorem mem_ofClausePart_iff (hp : Place.Of tree p) (hclause : Binding.clause? p = some clause)
    (hpart : part ∈ clause.namedChildren) {b : Binding} :
    b ∈ Binding.ofClausePart part ↔
      b ∈ Binding.ofImport p ∧ part.address <:+ b.part.address := by
  have hc := hp.of_mem_children (Binding.mem_children_of_clause? hclause)
  constructor
  · exact fun hb => ⟨Binding.mem_ofImport.2 ⟨clause, part, hclause, hpart, hb⟩,
      (Binding.ofClausePart_suffix hb).1⟩
  · rintro ⟨hb, hsuffix⟩
    obtain ⟨clause', part', hclause', hpart', hb⟩ := Binding.mem_ofImport.1 hb
    rw [hclause, Option.some.injEq] at hclause'
    subst hclause'
    rwa [← hc.eq_of_children (Place.mem_children_of_mem_namedChildren hpart')
      (Place.mem_children_of_mem_namedChildren hpart) (Binding.ofClausePart_suffix hb).1 hsuffix]

/-- A part other than a list of names goes if one of its names does. -/
theorem isPartOf_clausePart (hp : Place.Of tree p) (hclause : Binding.clause? p = some clause)
    (hpart : part ∈ clause.namedChildren) (htype : part.node.type ≠ "named_imports") :
    isPartOf (removedBindings t source (Binding.ofImport p)) part =
      ! spares t source (Binding.ofClausePart part) := by
  refine isPartOf_removedBindings fun b => ⟨fun hb => ?_, fun ⟨hb, haddress⟩ => ?_⟩
  · refine ⟨((mem_ofClausePart_iff hp hclause hpart).1 hb).1, ?_⟩
    rcases Binding.mem_ofClausePart.1 hb with ⟨-, rfl⟩ | ⟨-, hbpart, -⟩ | ⟨hlist, -⟩
    · rfl
    · rw [hbpart]
    · exact absurd hlist htype
  · exact (mem_ofClausePart_iff hp hclause hpart).2 ⟨hb, haddress ▸ List.suffix_rfl⟩

/-- A specifier goes if its local name does. -/
theorem isPartOf_specifier (hp : Place.Of tree p) (hclause : Binding.clause? p = some clause)
    (hpart : part ∈ clause.namedChildren) (htype : part.node.type = "named_imports")
    {specifier : Place} (hs : specifier ∈ part.namedChildren) :
    isPartOf (removedBindings t source (Binding.ofImport p)) specifier =
      ! spares t source (Binding.ofSpecifier? specifier).toList := by
  have hc := hp.of_mem_children (Binding.mem_children_of_clause? hclause)
  have hof := hc.of_mem_children (Place.mem_children_of_mem_namedChildren hpart)
  have hsof := hof.of_mem_children (Place.mem_children_of_mem_namedChildren hs)
  refine isPartOf_removedBindings fun b => ?_
  rw [Option.mem_toList]
  constructor
  · intro hb
    have hbpart : b.part = specifier := (Binding.ofSpecifier?_eq_some hb).1
    have hmem : b ∈ Binding.ofClausePart part :=
      Binding.mem_ofClausePart.2 (.inr (.inr ⟨htype, hbpart ▸ hs, hbpart ▸ hb⟩))
    exact ⟨((mem_ofClausePart_iff hp hclause hpart).1 hmem).1, by rw [hbpart]⟩
  · rintro ⟨hb, haddress⟩
    have hsuffix : part.address <:+ b.part.address :=
      haddress ▸ Place.suffix_of_mem_children (Place.mem_children_of_mem_namedChildren hs)
    have hmem := (mem_ofClausePart_iff hp hclause hpart).2 ⟨hb, hsuffix⟩
    have hbof := (Binding.ofClausePart_of_tree hof hmem).1
    rcases Binding.mem_ofClausePart.1 hmem with ⟨h, -⟩ | ⟨h, -⟩ | ⟨-, -, hb⟩
    · simp [htype] at h
    · simp [htype] at h
    · rwa [hbof.eq_of_address hsof haddress] at hb

/-- What is left of a part of a clause, by the names that go. -/
theorem clausePart?_eq (hp : Place.Of tree p) (hclause : Binding.clause? p = some clause)
    (hpart : part ∈ clause.namedChildren) :
    clausePart? source (removedBindings t source (Binding.ofImport p)) part =
      if part.node.type = "named_imports" then keptList? t source part
      else if spares t source (Binding.ofClausePart part) then some (part.node.text source)
      else none := by
  unfold clausePart?
  split
  · next htype =>
    have hkept : (part.namedChildren.filter fun s => s.node.type = "import_specifier" &&
        ! isPartOf (removedBindings t source (Binding.ofImport p)) s) =
          keptSpecifiers t source part := by
      refine List.filter_congr fun s hs => ?_
      rw [isPartOf_specifier hp hclause hpart htype hs, Bool.not_not]
    dsimp only
    rw [hkept]
    rfl
  · next htype =>
    rw [isPartOf_clausePart hp hclause hpart htype]
    cases spares t source (Binding.ofClausePart part) <;> rfl

theorem ofClausePart_of_comment (h : part.node.type = "comment") :
    Binding.ofClausePart part = [] := by
  unfold Binding.ofClausePart
  rw [h]
  rfl

/-- The comments of a clause all stay. -/
theorem filterMap_comments (hp : Place.Of tree p) (hclause : Binding.clause? p = some clause) :
    (clause.namedChildren.filter (·.node.type = "comment")).filterMap
        (clausePart? source (removedBindings t source (Binding.ofImport p))) =
      clauseComments source clause := by
  rw [clauseComments, ← List.filterMap_eq_map]
  refine List.filterMap_congr fun q hq => ?_
  obtain ⟨hq, htype⟩ := List.mem_filter.1 hq
  rw [decide_eq_true_eq] at htype
  rw [clausePart?_eq hp hclause hq, if_neg (by simp [htype]), ofClausePart_of_comment htype]
  rfl

/-- Of the other parts, those stay whose names do. -/
theorem filterMap_parts (parts : ClauseParts clause) (hp : Place.Of tree p)
    (hclause : Binding.clause? p = some clause) :
    (clause.namedChildren.filter (·.node.type ≠ "comment")).filterMap
        (clausePart? source (removedBindings t source (Binding.ofImport p))) =
      parts.kept t source := by
  have hmem : ∀ q ∈ parts.default?.toList ++ parts.star?.toList ++ parts.list?.toList,
      q ∈ clause.namedChildren := fun q hq =>
    List.mem_of_mem_filter (parts.namedChildren_eq ▸ hq)
  rw [parts.namedChildren_eq, List.filterMap_append, ClauseParts.kept, ← List.filterMap_eq_map,
    List.filterMap_filter]
  congr 1
  · -- The default name and the namespace stay as they are.
    refine List.filterMap_congr fun q hq => ?_
    have htype : q.node.type ≠ "named_imports" := by
      rcases List.mem_append.1 hq with hq | hq
      · rw [parts.default_type q (Option.mem_toList.1 hq)]
        decide
      · rw [parts.star_type q (Option.mem_toList.1 hq)]
        decide
    rw [clausePart?_eq hp hclause (hmem q (List.mem_append_left _ hq)), if_neg htype]
    rfl
  · refine List.filterMap_congr fun q hq => ?_
    rw [clausePart?_eq hp hclause (hmem q (List.mem_append_right _ hq)),
      if_pos (parts.list_type q (Option.mem_toList.1 hq))]

/-- How an import that keeps something is rebuilt. Its one edit puts texts for the clause: what
stays, in its order, and between that the comments right in the clause. -/
structure RebuildsClause (t : Targets) (source : Bytes) (p : Place) {clause : Place}
    (parts : ClauseParts clause) (texts : List String) : Prop where
  change_eq : change t source p = .ok
    ⟨[⟨clause.node.start, clause.node.stop, Utf8.encode (commaSeparated texts)⟩],
      bindingNames source (removedBindings t source (Binding.ofImport p)), [clause]⟩
  ne_empty : commaSeparated texts ≠ ""
  kept_sublist : (parts.kept t source).Sublist texts
  perm : texts.Perm (parts.kept t source ++ clauseComments source clause)
  eq_kept : clauseComments source clause = [] → texts = parts.kept t source

/-- An import of which some names go and some stay is rebuilt from what stays, and without comments
right in its clause from nothing else. -/
theorem clause_keeps_bindings (t : Targets) (source : Bytes) (tree : Node) (p clause : Place)
    (parts : ClauseParts clause) (hw : WellFormed source tree) (hg : Grammatical tree)
    (hp : p ∈ Place.preorder tree) (hk : p.node.kind = .importStatement)
    (hclause : Binding.clause? p = some clause)
    (hgoes : ∃ b ∈ Binding.ofImport p, t.holds source .importBinding b.name.node = true)
    (hstays : ∃ b ∈ Binding.ofImport p, t.holds source .importBinding b.name.node = false) :
    ∃ texts, RebuildsClause t source p parts texts := by
  rw [Place.mem_preorder] at hp
  have hne : removedBindings t source (Binding.ofImport p) ≠ [] := by
    obtain ⟨b, hb, hholds⟩ := hgoes
    exact List.ne_nil_of_mem (mem_removedBindings.2 ⟨hb, hholds⟩)
  have hlen : (removedBindings t source (Binding.ofImport p)).length ≠
      (Binding.ofImport p).length := by
    obtain ⟨b, hb, hholds⟩ := hstays
    exact (List.length_filter_lt_length_iff_exists.2 ⟨b, hb, by simp [hholds]⟩).ne
  have hsublist : (parts.kept t source).Sublist (clause.namedChildren.filterMap
      (clausePart? source (removedBindings t source (Binding.ofImport p)))) := by
    rw [← filterMap_parts parts hp hclause]
    exact List.filter_sublist.filterMap _
  have hperm : (clause.namedChildren.filterMap
      (clausePart? source (removedBindings t source (Binding.ofImport p)))).Perm
        (parts.kept t source ++ clauseComments source clause) := by
    rw [← filterMap_parts parts hp hclause, ← filterMap_comments hp hclause,
      ← List.filterMap_append]
    have hsplit := List.filter_append_perm (fun q => decide (q.node.type ≠ "comment"))
      clause.namedChildren
    simp only [decide_not, Bool.not_not] at hsplit
    simpa using hsplit.symm.filterMap _
  refine ⟨_, ?_, clauseText_ne_empty hw hg hp hclause hlen, hsublist, hperm, fun hnone => ?_⟩
  · rw [change, hk]
    change Except.ok (changeImport t source p) = _
    unfold changeImport
    dsimp only
    rw [if_neg (by simpa using hne), if_neg hlen, hclause]
    rfl
  · rw [hnone, List.append_nil] at hperm
    exact (hsublist.eq_of_length hperm.length_eq.symm).symm

end Clause

namespace Commented

open Deadwood.Sample (node token)

/-- A comment in the clause of an import. -/
def source : Bytes := Utf8.encode "import a, /* c */ \x7b b \x7d from \"m\";\n"

def default : Node := node "identifier" none 7 8 []

def list : Node :=
  node "named_imports" none 18 23 [token "\x7b" 18 19,
    node "import_specifier" none 20 21 [node "identifier" (some "name") 20 21 []],
    token "\x7d" 22 23]

def clause : Node :=
  node "import_clause" none 7 23 [default, token "," 8 9, node "comment" none 10 17 [], list]

def statement : Node :=
  node "import_statement" none 0 33 [token "import" 0 6, clause, token "from" 24 28,
    node "string" (some "source") 29 32 [token "\"" 29 30, node "string_fragment" none 30 31 [],
      token "\"" 31 32],
    token ";" 32 33]

def tree : Node := node "program" none 0 34 [statement]

def statementPlace : Place := ⟨statement, [(tree, 0)]⟩

def clausePlace : Place := ⟨clause, [(statement, 1), (tree, 0)]⟩

def parts : ClauseParts clausePlace where
  default? := some ⟨default, [(clause, 0), (statement, 1), (tree, 0)]⟩
  star? := none
  list? := some ⟨list, [(clause, 3), (statement, 1), (tree, 0)]⟩
  default_type := by simp [default, node, Node.type, Node.label]
  star_type := by simp
  list_type := by simp [list, node, Node.type, Node.label]
  namedChildren_eq := rfl

theorem wellFormed : WellFormed source tree := by decide +kernel

theorem grammatical : Grammatical tree := by decide +kernel

theorem mem_preorder : statementPlace ∈ Place.preorder tree :=
  Place.mem_preorder.2 (.child .top rfl)

theorem clause?_eq : Binding.clause? statementPlace = some clausePlace := rfl

end Commented

/-- The default name goes, and the comment comes before the name in braces. -/
theorem clause_keeps_bindings_sample :
    ∃ texts, RebuildsClause [("a", .importBinding)] Commented.source Commented.statementPlace
      Commented.parts texts :=
  clause_keeps_bindings [("a", .importBinding)] Commented.source Commented.tree
    Commented.statementPlace Commented.clausePlace Commented.parts Commented.wellFormed
    Commented.grammatical Commented.mem_preorder rfl Commented.clause?_eq (by decide +kernel)
    (by decide +kernel)

/-- The name in braces goes, and the comment stands as a part after the default name that stays. -/
theorem comment_joins_clause :
    (∃ b ∈ Binding.ofImport Commented.statementPlace,
      Targets.holds [("b", .importBinding)] Commented.source .importBinding b.name.node = true) ∧
    (∃ b ∈ Binding.ofImport Commented.statementPlace,
      Targets.holds [("b", .importBinding)] Commented.source .importBinding b.name.node = false) ∧
    Commented.parts.kept [("b", .importBinding)] Commented.source = ["a"] ∧
    change [("b", .importBinding)] Commented.source Commented.statementPlace =
      .ok ⟨[⟨7, 23, Utf8.encode "a, /* c */"⟩], ["b"], [Commented.clausePlace]⟩ := by
  refine ⟨by decide +kernel, by decide +kernel, by decide +kernel, ?_⟩
  rfl

end Deadwood.Plan
