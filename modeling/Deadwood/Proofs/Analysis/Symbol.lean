import Deadwood.Proofs.Analysis.Binding

/-!
Where symbols are defined. The names that a place introduces lie below it, one after another.
-/
namespace Deadwood.Symbol

variable {source : Bytes} {tree : Node} {p : Place} {b : Place × SymbolKind}

def importSymbols (bindings : List Binding) : List (Place × SymbolKind) :=
  bindings.map fun b => (b.name, .importBinding)

theorem definitions_of_declarator {d : Place} (hk : d.node.kind = .variableDeclarator) :
    definitions source d = match d.child? "name", d.node.child? "value" with
      | some name, some value =>
        if value.kind.isFunctionValue ∧ name.node.type = "identifier" then [(name, .arrowBinding)]
        else if (requireSource? source value).isNone then []
        else if name.node.type = "identifier" then [(name, .importBinding)]
        else if name.node.type = "object_pattern" then importSymbols (Binding.ofPattern name)
        else []
      | _, _ => [] := by
  unfold definitions
  rw [hk]
  rfl

/-- The symbols of a place are one that it names, those of its pattern or those of its clause. -/
theorem definitions_cases (source : Bytes) (p : Place) :
    definitions source p = [] ∨
    (∃ name ∈ p.children, ∃ kind, definitions source p = [(name, kind)]) ∨
    (∃ pattern ∈ p.children, definitions source p = importSymbols (Binding.ofPattern pattern)) ∨
    definitions source p = importSymbols (Binding.ofImport p) := by
  cases hk : p.node.kind with
  | functionDeclaration =>
    unfold definitions
    rw [hk]
    cases hname : p.child? "name" with
    | none => exact .inl rfl
    | some name => exact .inr (.inl ⟨name, Place.mem_children_of_child? hname, _, rfl⟩)
  | variableDeclarator =>
    rw [definitions_of_declarator hk]
    split
    · next name value hname hvalue =>
      have hmem := Place.mem_children_of_child? hname
      split
      · exact .inr (.inl ⟨name, hmem, _, rfl⟩)
      · split
        · exact .inl rfl
        · split
          · exact .inr (.inl ⟨name, hmem, _, rfl⟩)
          · split
            · exact .inr (.inr (.inl ⟨name, hmem, rfl⟩))
            · exact .inl rfl
    · exact .inl rfl
  | method =>
    unfold definitions
    rw [hk]
    dsimp only
    split
    · split
      · next name hname =>
        split
        · exact .inr (.inl ⟨name, Place.mem_children_of_child? hname, _, rfl⟩)
        · exact .inl rfl
      · exact .inl rfl
    · exact .inl rfl
  | importStatement =>
    refine .inr (.inr (.inr ?_))
    unfold definitions
    rw [hk]
    rfl
  | _ =>
    refine .inl ?_
    unfold definitions
    rw [hk]

theorem mem_importSymbols {bindings : List Binding} :
    b ∈ importSymbols bindings ↔ ∃ c ∈ bindings, b = (c.name, .importBinding) := by
  simp [importSymbols, eq_comm]

/-- A symbol is named below the place that defines it. -/
theorem definitions_of_tree (hp : Place.Of tree p) (h : b ∈ definitions source p) :
    Place.Of tree b.1 ∧ p.address <:+ b.1.address := by
  have child : ∀ {q}, q ∈ p.children → Place.Of tree q ∧ p.address <:+ q.address := fun hq =>
    ⟨hp.of_mem_children hq, Place.suffix_of_mem_children hq⟩
  rcases definitions_cases source p with hd | ⟨name, hname, kind, hd⟩ | ⟨pattern, hpattern, hd⟩ | hd
  · simp [hd] at h
  · rw [hd, List.mem_singleton] at h
    exact h ▸ child hname
  · rw [hd] at h
    obtain ⟨c, hc, rfl⟩ := mem_importSymbols.1 h
    obtain ⟨hname, hsuffix⟩ := Binding.ofPattern_below (child hpattern).1 hc
    exact ⟨hname, (child hpattern).2.trans hsuffix⟩
  · rw [hd] at h
    obtain ⟨c, hc, rfl⟩ := mem_importSymbols.1 h
    obtain ⟨clause, -, hclause, -⟩ := Binding.mem_ofImport.1 hc
    obtain ⟨hname, hsuffix⟩ := Binding.ofImport_below hp hclause hc
    exact ⟨hname, (child (Binding.mem_children_of_clause? hclause)).2.trans hsuffix⟩

/-- The symbols of a place come in document order. -/
theorem pairwise_definitions (source : Bytes) (p : Place) :
    (definitions source p).Pairwise fun a b => Address.Before a.1.address b.1.address := by
  rcases definitions_cases source p with hd | ⟨name, hname, kind, hd⟩ | ⟨pattern, hpattern, hd⟩ | hd
  · rw [hd]
    exact List.Pairwise.nil
  · rw [hd]
    exact List.pairwise_singleton _ _
  · rw [hd, importSymbols, List.pairwise_map]
    exact Binding.pairwise_ofPattern pattern
  · rw [hd, importSymbols, List.pairwise_map]
    exact Binding.pairwise_ofImport p

theorem kind_of_mem_importSymbols {bindings : List Binding} (h : b ∈ importSymbols bindings) :
    b.2 = .importBinding := by
  obtain ⟨c, -, rfl⟩ := mem_importSymbols.1 h
  rfl

/-- A declarator defines no method. -/
theorem kind_of_declarator (hk : p.node.kind = .variableDeclarator)
    (h : b ∈ definitions source p) : b.2 = .arrowBinding ∨ b.2 = .importBinding := by
  rw [definitions_of_declarator hk] at h
  split at h
  · split at h
    · exact .inl (List.mem_singleton.1 h ▸ rfl)
    · split at h
      · cases h
      · split at h
        · exact .inr (List.mem_singleton.1 h ▸ rfl)
        · split at h
          · exact .inr (kind_of_mem_importSymbols h)
          · cases h
  · cases h

/-- A symbol of the kind of methods is a method with the name of a member. -/
theorem definitions_of_method (h : b ∈ definitions source p) (hb : b.2 = .method) :
    p.node.kind = .method ∧ p.child? "name" = some b.1 ∧ isMemberName b.1.node = true ∧
      isImplicit (b.1.node.text source) = false := by
  cases hk : p.node.kind with
  | functionDeclaration =>
    unfold definitions at h
    rw [hk] at h
    simp only [Option.mem_toList, Option.map_eq_some_iff] at h
    obtain ⟨name, -, rfl⟩ := h
    cases hb
  | variableDeclarator =>
    rcases kind_of_declarator hk h with hkind | hkind
    · simp [hb] at hkind
    · simp [hb] at hkind
  | method =>
    unfold definitions at h
    rw [hk] at h
    dsimp only at h
    split at h
    · split at h
      · next name hname =>
        split at h
        · next hmember =>
          rw [List.mem_singleton] at h
          subst h
          exact ⟨rfl, hname, hmember.1, by simpa using hmember.2⟩
        · cases h
      · cases h
    · cases h
  | importStatement =>
    unfold definitions at h
    rw [hk] at h
    rw [kind_of_mem_importSymbols h] at hb
    cases hb
  | _ =>
    unfold definitions at h
    rw [hk] at h
    cases h

theorem mem_definitionsOf :
    b ∈ definitionsOf source tree ↔ ∃ p, Place.Of tree p ∧ b ∈ definitions source p := by
  simp [definitionsOf, Place.mem_preorder]

end Deadwood.Symbol
