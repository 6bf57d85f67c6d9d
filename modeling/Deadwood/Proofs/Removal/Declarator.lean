import Deadwood.Proofs.Removal.Generate
import Deadwood.Proofs.Removal.Within

/-!
What is left of a declarator: its own text, or its own with a pattern that lists the properties that
stay (`fate_cases`, `exists_kept`).
-/
namespace Deadwood.Plan

section Declarator

variable {t : Targets} {source : Bytes} {tree : Node} {p d : Place}

/-- A property of a pattern, no comment, of which no name goes. -/
def staysInPattern (t : Targets) (source : Bytes) (property : Place) : Bool :=
  property.node.type != "comment" && spares t source (Binding.ofProperty? property).toList

/-- The properties that stay in the object pattern of a declarator. -/
def remaining (t : Targets) (source : Bytes) (d : Place) : List Place :=
  match d.child? "name" with
  | none => []
  | some name =>
    if name.node.type = "object_pattern" then name.namedChildren.filter (staysInPattern t source)
    else []

/-- A declarator with a name that goes, and nothing that stays beside it. -/
def isDropped (t : Targets) (source : Bytes) (d : Place) : Bool :=
  ! (targeted t source d).isEmpty && (remaining t source d).isEmpty

/-- The text of a declarator that is left: what the edits inside it make of its own, if no name of
it goes, else its own with another pattern. -/
inductive Remains (t : Targets) (source : Bytes) (edits : List Edit) (d : Place) : Bytes → Prop
  | whole {text : Bytes} : targeted t source d = [] →
      Edit.Makes source edits ⟨d.node.start, d.node.stop⟩ text → Remains t source edits d text
  | part {pattern : Place} : targeted t source d ≠ [] → remaining t source d ≠ [] →
      d.child? "name" = some pattern → Remains t source edits d
        (source.slice d.node.start pattern.node.start ++
          Utf8.encode (braced ((remaining t source d).map (·.node.text source))) ++
          source.slice pattern.node.stop d.node.stop)

theorem isDropped_eq_true :
    isDropped t source d = true ↔ targeted t source d ≠ [] ∧ remaining t source d = [] := by
  simp [isDropped]

theorem Remains.eq_of_targeted {edits edits' : List Edit} {text text' : Bytes}
    (hsome : targeted t source d ≠ []) (h : Remains t source edits d text)
    (h' : Remains t source edits' d text') : text = text' := by
  cases h with
  | whole hnone => exact absurd hnone hsome
  | part _ _ hname =>
    cases h' with
    | whole hnone => exact absurd hnone hsome
    | part _ _ hname' =>
      rw [hname, Option.some.injEq] at hname'
      rw [hname']

/-- What stays in a pattern, by the names that go. -/
theorem keptProperties_eq {pattern : Place} (hp : Place.Of tree pattern) :
    keptProperties (removedBindings t source (Binding.ofPattern pattern)) pattern =
      pattern.namedChildren.filter (staysInPattern t source) := by
  refine List.filter_congr fun q hq => ?_
  have hqof := hp.of_mem_children (Place.mem_children_of_mem_namedChildren hq)
  have hpart : isPartOf (removedBindings t source (Binding.ofPattern pattern)) q =
      ! spares t source (Binding.ofProperty? q).toList := by
    refine isPartOf_removedBindings fun b => ?_
    rw [Option.mem_toList]
    constructor
    · intro hb
      have hbpart := (Binding.ofProperty?_eq_some hb).1
      exact ⟨Binding.mem_ofPattern.2 ⟨hbpart ▸ hq, hbpart ▸ hb⟩, by rw [hbpart]⟩
    · rintro ⟨hb, haddress⟩
      have hbof := (Binding.ofPattern_of_tree hp hb).1
      rw [← hbof.eq_of_address hqof haddress]
      exact (Binding.mem_ofPattern.1 hb).2
  rw [hpart, Bool.not_not, Bool.and_comm]
  rfl

theorem FateForm.targeted_eq_nil (h : FateForm t source d .keep) : targeted t source d = [] := by
  cases h with
  | keep h => exact h

theorem FateForm.targeted_ne_nil {f : Fate} (h : FateForm t source d f) (hne : f ≠ .keep) :
    targeted t source d ≠ [] := by
  cases h with
  | keep => exact absurd rfl hne
  | name _ htargeted => simp [htargeted]
  | pattern _ _ hremoved htargeted | rebuild _ _ hremoved htargeted =>
    rw [htargeted]
    simpa [Symbol.importSymbols] using hremoved

/-- What becomes of a declarator: it is kept if no name of it goes, dropped if nothing stays beside
one that goes, and has a pattern of what stays otherwise. -/
theorem fate_cases (t : Targets) (source : Bytes) (hd : Place.Of tree d)
    (hk : d.node.kind = .variableDeclarator) :
    (fate t source d = .keep ∧ targeted t source d = []) ∨
    (∃ names, fate t source d = .drop names ∧ isDropped t source d = true) ∨
    ∃ names pattern, d.child? "name" = some pattern ∧ targeted t source d ≠ [] ∧
      remaining t source d ≠ [] ∧ fate t source d = .rebuild names (replacementOf pattern.node
        (braced ((remaining t source d).map (·.node.text source)))) := by
  have hform := form_fate t source hk
  generalize hfate : fate t source d = f at hform ⊢
  have keep : f = .keep → f = .keep ∧ targeted t source d = [] := fun h =>
    ⟨h, (h ▸ hform).targeted_eq_nil⟩
  have named : ∀ {kind name}, d.child? "name" = some name → name.node.type = "identifier" →
      nameFate t source kind name.node = f → (f = .keep ∧ targeted t source d = []) ∨
        ∃ names, f = .drop names ∧ isDropped t source d = true := by
    intro kind name hname htype h
    unfold nameFate at h
    split at h
    · subst h
      have hnone : remaining t source d = [] := by simp [remaining, hname, htype]
      exact .inr ⟨_, rfl, isDropped_eq_true.2 ⟨hform.targeted_ne_nil (by simp), hnone⟩⟩
    · exact .inl (keep h.symm)
  unfold fate at hfate
  split at hfate
  · next name value hname hvalue =>
    dsimp only at hfate
    split at hfate
    · next htype =>
      split at hfate
      · exact (named hname htype hfate).imp_right .inl
      · split at hfate
        · exact (named hname htype hfate).imp_right .inl
        · exact .inl (keep hfate.symm)
    · split at hfate
      · next hpattern =>
        have hkept : keptProperties (removedBindings t source (Binding.ofPattern name)) name = _ :=
          keptProperties_eq (hd.of_mem_children (Place.mem_children_of_child? hname))
        have hremaining : remaining t source d = name.namedChildren.filter
            (staysInPattern t source) := by simp [remaining, hname, hpattern.1]
        rw [← hremaining] at hkept
        unfold patternFate at hfate
        dsimp only at hfate
        rw [hkept] at hfate
        split at hfate
        · exact .inl (keep hfate.symm)
        · split at hfate
          · next hempty =>
            subst hfate
            exact .inr (.inl ⟨_, rfl,
              isDropped_eq_true.2 ⟨hform.targeted_ne_nil (by simp), List.isEmpty_iff.1 hempty⟩⟩)
          · next hsome =>
            subst hfate
            exact .inr (.inr ⟨_, name, hname, hform.targeted_ne_nil (by simp),
              by simpa using hsome, rfl⟩)
      · exact .inl (keep hfate.symm)
  · exact .inl (keep hfate.symm)

theorem isDrop_fate (t : Targets) (source : Bytes) (hd : Place.Of tree d)
    (hk : d.node.kind = .variableDeclarator) :
    (fate t source d).isDrop = isDropped t source d := by
  rcases fate_cases t source hd hk with ⟨hf, hnone⟩ | ⟨names, hf, hdropped⟩ |
    ⟨names, pattern, -, hsome, hrest, hf⟩
  · rw [hf, isDropped, hnone]
    rfl
  · rw [hf, hdropped]
    rfl
  · have hstays : isDropped t source d = false := by simp [isDropped, hrest]
    rw [hf, hstays]
    rfl

/-- A declarator that stays has a text, and that is what remains of it without other edits. -/
theorem exists_text (hw : WellFormed source tree) (hc : OnCharacters source tree)
    (hp : Place.Of tree p) (hd : d ∈ declarators p) (hstays : isDropped t source d = false) :
    ∃ text, keptText? source d.node (fate t source d) = .ok (some text) ∧
      Remains t source [] d (Utf8.encode text) := by
  have hof := hp.of_mem_children (mem_children_of_mem_declarators hd)
  obtain ⟨o, ho⟩ : ∃ o, keptText? source d.node (fate t source d) = .ok o :=
    exists_keptText? hw hc hp hd
  rcases fate_cases t source hof (kind_of_mem_declarators hd) with ⟨hf, hnone⟩ |
    ⟨names, hf, hdropped⟩ | ⟨names, pattern, hname, hsome, hrest, hf⟩
  · have hbounds := hc _ hof.mem_nodes
    refine ⟨d.node.text source, by rw [hf]; rfl, .whole hnone ?_⟩
    rw [Node.text, Node.bytes, Utf8.encode_decodeLossy (Utf8.isValid_slice hbounds.1 hbounds.2)]
    exact Edit.makes_slice (hof.start_le_stop hw.isLaidOut) (by simp)
  · rw [hdropped] at hstays
    cases hstays
  · rw [hf] at ho ⊢
    have hchild := Place.mem_children_of_child? hname
    have hin := hof.covers_children hw.isLaidOut hchild
    have hle := (hof.of_mem_children hchild).start_le_stop hw.isLaidOut
    cases o with
    | none =>
      unfold keptText? at ho
      cases hdecode : Utf8.decode (rebuilt source d.node (replacementOf pattern.node
        (braced ((remaining t source d).map (·.node.text source))))) <;>
          simp [hdecode, Except.map] at ho
    | some text =>
      refine ⟨text, ho, ?_⟩
      rw [encode_of_keptText? ho, rebuilt_eq hin.1 hle hin.2]
      exact .part hsome hrest hname

/-- The texts that are kept are those of the declarators that stay. -/
theorem exists_kept (hw : WellFormed source tree) (hc : OnCharacters source tree)
    (hp : Place.Of tree p) : ∃ text : Place → String,
      keptTexts source (fates t source p) =
        .ok (((declarators p).filter fun d => ! isDropped t source d).map text) ∧
      ∀ d ∈ declarators p, isDropped t source d = false →
        Remains t source [] d (Utf8.encode (text d)) := by
  have htexts : ∀ d, d ∈ declarators p ∧ isDropped t source d = false → ∃ text,
      keptText? source d.node (fate t source d) = .ok (some text) ∧
        Remains t source [] d (Utf8.encode text) :=
    fun d hd => exists_text hw hc hp hd.1 hd.2
  choose! text htext hremains using htexts
  refine ⟨text, ?_, fun d hd hstays => hremains d ⟨hd, hstays⟩⟩
  obtain ⟨kept, hkept⟩ : ∃ kept, keptTexts source (fates t source p) = .ok kept := by
    refine exists_keptTexts fun f hf => ?_
    obtain ⟨hd, hfate⟩ := mem_fates.1 hf
    exact hfate ▸ exists_keptText? hw hc hp hd
  rw [hkept, kept_eq_filterMap hkept, ← List.filterMap_eq_map, List.filterMap_filter, fates,
    List.filterMap_map]
  congr 1
  refine List.filterMap_congr fun d hd => ?_
  dsimp only [Function.comp_apply]
  have hof := hp.of_mem_children (mem_children_of_mem_declarators hd)
  cases hdropped : isDropped t source d with
  | false => simp [htext d ⟨hd, hdropped⟩, Except.toOption]
  | true =>
    have hdrop := isDrop_fate t source hof (kind_of_mem_declarators hd)
    rw [hdropped] at hdrop
    cases hf : fate t source d with
    | keep | rebuild => simp [hf, Fate.isDrop] at hdrop
    | drop => rfl

end Declarator

end Deadwood.Plan
