import Deadwood.Proofs.Analysis.Symbol
import Deadwood.Proofs.Removal.Range

/-!
What a place contributes to a plan, case by case: a deletion of the whole with the place itself as
what is replaced, or edits inside the place, with the replaced parts among its children.
-/
namespace Deadwood.Plan

variable {t : Targets} {source : Bytes} {tree : Node} {p q target : Place} {c : Change}

/-- The forms of what a place contributes. -/
inductive Form (t : Targets) (source : Bytes) (p : Place) : Change → Prop
  | nothing : Form t source p {}
  | function {name target : Place} : p.node.kind = .functionDeclaration →
      p.child? "name" = some name → t.holds source .function name.node = true →
      statementTarget? p = some target →
      Form t source p ⟨[deletion source target false], [name.node.text source], [p]⟩
  | method {name : Place} : p.node.kind = .method → p.parentType? = some "class_body" →
      p.child? "name" = some name → t.holds source .method name.node = true →
      Form t source p ⟨[deletion source p true], [name.node.text source], [p]⟩
  | importStatement {removed : List Binding} {target : Place} : p.node.kind = .importStatement →
      removed = removedBindings t source (Binding.ofImport p) → removed ≠ [] →
      statementTarget? p = some target →
      Form t source p ⟨[deletion source target false], bindingNames source removed, [p]⟩
  | clause {removed : List Binding} {clause : Place} : p.node.kind = .importStatement →
      removed = removedBindings t source (Binding.ofImport p) → removed ≠ [] →
      removed.length ≠ (Binding.ofImport p).length → Binding.clause? p = some clause →
      Form t source p ⟨[replacementOf clause.node (clauseText source removed clause)],
        bindingNames source removed, [clause]⟩
  | declaration {names : List String} {target : Place} : p.node.kind = .variableDeclaration →
      keptTexts source (fates t source p) = .ok [] →
      names = (fates t source p).flatMap (·.2.names) → names ≠ [] →
      statementTarget? p = some target →
      Form t source p ⟨[deletion source target false], names, [p]⟩
  | list {kept names : List String} : p.node.kind = .variableDeclaration →
      keptTexts source (fates t source p) = .ok kept → kept ≠ [] →
      names = (fates t source p).flatMap (·.2.names) → names ≠ [] →
      (fates t source p).any (·.2.isDrop) = true →
      Form t source p ⟨[⟨(declaratorSpan (fates t source p)).start,
        (declaratorSpan (fates t source p)).stop, Utf8.encode (commaSeparated kept)⟩], names,
        declarators p⟩
  | patterns {kept names : List String} : p.node.kind = .variableDeclaration →
      keptTexts source (fates t source p) = .ok kept → kept ≠ [] →
      names = (fates t source p).flatMap (·.2.names) → names ≠ [] →
      (fates t source p).any (·.2.isDrop) = false →
      Form t source p ⟨(fates t source p).filterMap (·.2.pattern?), names,
        ((fates t source p).filter (·.2.pattern?.isSome)).map (·.1)⟩

theorem ne_nothing_of_edit {e : Edit} (he : e ∈ c.edits) : c ≠ {} := by
  rintro rfl
  cases he

/-- A change at a method deletes it for its name. -/
theorem Form.of_method (h : Form t source p c) (hk : p.node.kind = .method) (hne : c ≠ {}) :
    ∃ name, p.parentType? = some "class_body" ∧ p.child? "name" = some name ∧
      t.holds source .method name.node = true ∧
      c = ⟨[deletion source p true], [name.node.text source], [p]⟩ := by
  cases h with
  | nothing => exact absurd rfl hne
  | method _ hclass hname hholds => exact ⟨_, hclass, hname, hholds, rfl⟩
  | function hk' | importStatement hk' | clause hk' | declaration hk' | list hk' | patterns hk' =>
    simp [hk] at hk'

theorem mem_children_of_mem_declarators {d : Place} (h : d ∈ declarators p) : d ∈ p.children :=
  Place.mem_children_of_mem_namedChildren (List.mem_of_mem_filter h)

theorem map_fst_fates (t : Targets) (source : Bytes) (p : Place) :
    (fates t source p).map (·.1) = declarators p := by
  simp [fates, Function.comp_def]

theorem mem_fates {f : Place × Fate} :
    f ∈ fates t source p ↔ f.1 ∈ declarators p ∧ f.2 = fate t source f.1 := by
  obtain ⟨d, fate'⟩ := f
  simp only [fates, List.mem_map, Prod.mk.injEq]
  constructor
  · rintro ⟨d', hd, rfl, rfl⟩
    exact ⟨hd, rfl⟩
  · rintro ⟨hd, rfl⟩
    exact ⟨d, hd, rfl, rfl⟩

theorem form_dropStatement {names : List String}
    (h : ∀ target, statementTarget? p = some target →
      Form t source p ⟨[deletion source target false], names, [p]⟩) :
    Form t source p (dropStatement source p names) := by
  unfold dropStatement
  split
  · exact .nothing
  · next target htarget => exact h target htarget

theorem form_changeFunction (hk : p.node.kind = .functionDeclaration) :
    Form t source p (changeFunction t source p) := by
  unfold changeFunction
  rw [← Place.child?_node]
  cases hname : p.child? "name" with
  | none => exact .nothing
  | some name =>
    dsimp only [Option.map_some]
    split
    · next hholds => exact form_dropStatement fun target => .function hk hname hholds
    · exact .nothing

theorem form_changeMethod (hk : p.node.kind = .method) :
    Form t source p (changeMethod t source p) := by
  unfold changeMethod
  rw [← Place.child?_node]
  split
  · next hclass =>
    cases hname : p.child? "name" with
    | none => exact .nothing
    | some name =>
      dsimp only [Option.map_some]
      split
      · next hholds => exact .method hk hclass hname hholds
      · exact .nothing
  · exact .nothing

theorem form_changeImport (hk : p.node.kind = .importStatement) :
    Form t source p (changeImport t source p) := by
  unfold changeImport
  dsimp only
  split
  · exact .nothing
  · next hne =>
    have hne' : removedBindings t source (Binding.ofImport p) ≠ [] := by simpa using hne
    split
    · exact form_dropStatement fun target => .importStatement hk rfl hne'
    · next hlen =>
      split
      · exact .nothing
      · next clause hclause => exact .clause hk rfl hne' hlen hclause

theorem form_changeVariables (hk : p.node.kind = .variableDeclaration)
    (h : changeVariables t source p = .ok c) : Form t source p c := by
  unfold changeVariables at h
  cases hkept : keptTexts source (fates t source p) with
  | error fault => simp [hkept, bind, Except.bind] at h
  | ok kept =>
    simp only [hkept, bind, Except.bind, pure, Except.pure] at h
    split at h
    · cases h
      exact .nothing
    · next hnames =>
      have hnames' : (fates t source p).flatMap (·.2.names) ≠ [] := by simpa using hnames
      split at h
      · next hempty =>
        have hnil : kept = [] := by simpa using hempty
        cases h
        exact form_dropStatement fun target => .declaration hk (hnil ▸ hkept) rfl hnames'
      · next hsome =>
        have hkept' : kept ≠ [] := by simpa using hsome
        split at h
        · next hdrop =>
          cases h
          rw [map_fst_fates]
          exact .list hk hkept hkept' rfl hnames' hdrop
        · next hdrop =>
          cases h
          exact .patterns hk hkept hkept' rfl hnames' (by simpa using hdrop)

theorem form_of_change (h : change t source p = .ok c) : Form t source p c := by
  unfold change at h
  split at h
  · next hk => cases h; exact form_changeFunction hk
  · next hk => exact form_changeVariables hk h
  · next hk => cases h; exact form_changeMethod hk
  · next hk => cases h; exact form_changeImport hk
  · cases h; exact .nothing

/-- The symbols that a place defines and that are targets. -/
def targeted (t : Targets) (source : Bytes) (p : Place) : List (Place × SymbolKind) :=
  (Symbol.definitions source p).filter fun d => t.holds source d.2 d.1.node

/-- The forms of what becomes of a declarator, with the targeted symbols that it defines. -/
inductive FateForm (t : Targets) (source : Bytes) (d : Place) : Fate → Prop
  | keep : targeted t source d = [] → FateForm t source d .keep
  | name {name : Place} {kind : SymbolKind} : d.child? "name" = some name →
      targeted t source d = [(name, kind)] → FateForm t source d (.drop [name.node.text source])
  | pattern {pattern : Place} {removed : List Binding} : d.child? "name" = some pattern →
      removed = removedBindings t source (Binding.ofPattern pattern) → removed ≠ [] →
      targeted t source d = Symbol.importSymbols removed →
      FateForm t source d (.drop (bindingNames source removed))
  | rebuild {pattern : Place} {removed : List Binding} {kept : List Place} :
      d.child? "name" = some pattern →
      removed = removedBindings t source (Binding.ofPattern pattern) → removed ≠ [] →
      targeted t source d = Symbol.importSymbols removed →
      kept = keptProperties removed pattern → pattern.node.type = "object_pattern" →
      FateForm t source d (.rebuild (bindingNames source removed)
        (replacementOf pattern.node (braced (kept.map (·.node.text source)))))

theorem filter_importSymbols (t : Targets) (source : Bytes) (bindings : List Binding) :
    (Symbol.importSymbols bindings).filter (fun d => t.holds source d.2 d.1.node) =
      Symbol.importSymbols (removedBindings t source bindings) := by
  rw [Symbol.importSymbols, List.filter_map]
  rfl

theorem form_nameFate {d name : Place} {kind : SymbolKind} (hname : d.child? "name" = some name)
    (hdef : Symbol.definitions source d = [(name, kind)]) :
    FateForm t source d (nameFate t source kind name.node) := by
  unfold nameFate
  split
  · next hholds =>
    have htargeted : targeted t source d = [(name, kind)] := by simp [targeted, hdef, hholds]
    exact .name hname htargeted
  · next hholds => exact .keep (by simp [targeted, hdef, hholds])

theorem form_patternFate {d pattern : Place} (hname : d.child? "name" = some pattern)
    (htype : pattern.node.type = "object_pattern")
    (hdef : Symbol.definitions source d = Symbol.importSymbols (Binding.ofPattern pattern)) :
    FateForm t source d (patternFate t source pattern) := by
  have htargeted : targeted t source d =
      Symbol.importSymbols (removedBindings t source (Binding.ofPattern pattern)) := by
    rw [targeted, hdef, filter_importSymbols]
  unfold patternFate
  dsimp only
  split
  · next hempty =>
    rw [List.isEmpty_iff.1 hempty] at htargeted
    exact .keep htargeted
  · next hne =>
    have hne' : removedBindings t source (Binding.ofPattern pattern) ≠ [] := by simpa using hne
    split
    · exact .pattern hname rfl hne' htargeted
    · exact .rebuild hname rfl hne' htargeted rfl htype

theorem form_fate (t : Targets) (source : Bytes) {d : Place}
    (hk : d.node.kind = .variableDeclarator) : FateForm t source d (fate t source d) := by
  have hdef : Symbol.definitions source d = _ := Symbol.definitions_of_declarator hk
  unfold fate
  have keep : Symbol.definitions source d = [] → FateForm t source d .keep := fun h =>
    .keep (by simp [targeted, h])
  -- A fate asks for the name first and the symbols ask for the value first, so the branches of
  -- one are looked up in the other.
  split
  · next name value hname hvalue =>
    rw [hname, hvalue] at hdef
    dsimp only at hdef ⊢
    split
    · next htype =>
      split
      · next hfun =>
        rw [if_pos ⟨hfun, htype⟩] at hdef
        exact form_nameFate hname hdef
      · next hfun =>
        rw [if_neg fun h => hfun h.1] at hdef
        split
        · next hreq =>
          rw [if_neg (by simpa using Option.isSome_iff_ne_none.1 hreq), if_pos htype] at hdef
          exact form_nameFate hname hdef
        · next hreq =>
          rw [if_pos (by simpa using hreq)] at hdef
          exact keep hdef
    · next htype =>
      rw [if_neg fun h => htype h.2, if_neg htype] at hdef
      split
      · next hpattern =>
        rw [if_neg (by simpa using Option.isSome_iff_ne_none.1 hpattern.2),
          if_pos hpattern.1] at hdef
        exact form_patternFate hname hpattern.1 hdef
      · next hpattern =>
        split at hdef
        · exact keep hdef
        · next hreq =>
          rw [if_neg fun h => hpattern ⟨h, by simpa [Option.isSome_iff_ne_none] using hreq⟩] at hdef
          exact keep hdef
  · next hnone =>
    split at hdef
    · next name value hname hvalue => exact absurd hvalue (hnone name value hname)
    · exact keep hdef

theorem encode_of_keptText? {n : Node} {names : List String} {e : Edit} {text : String}
    (h : keptText? source n (.rebuild names e) = .ok (some text)) :
    Utf8.encode text = rebuilt source n e := by
  unfold keptText? at h
  cases hdecode : Utf8.decode (rebuilt source n e) with
  | error fault => simp [hdecode, Except.map] at h
  | ok text' =>
    simp only [hdecode, Except.map, Except.ok.injEq, Option.some.injEq] at h
    exact h ▸ Utf8.encode_of_decode hdecode

theorem rebuilt_eq {n : Node} {e : Edit} (hstart : n.start ≤ e.start) (hle : e.start ≤ e.stop)
    (hstop : e.stop ≤ n.stop) : rebuilt source n e =
      source.slice n.start e.start ++ e.replacement ++ source.slice e.stop n.stop := by
  rw [rebuilt, Node.bytes, Bytes.take_slice source (hle.trans hstop),
    Bytes.drop_slice source (hstart.trans hle)]

theorem mem_kept {fs : List (Place × Fate)} {kept : List String}
    (h : keptTexts source fs = .ok kept) {text : String} :
    text ∈ kept ↔ ∃ f ∈ fs, keptText? source f.1.node f.2 = .ok (some text) := by
  induction fs generalizing kept with
  | nil =>
    cases h
    simp
  | cons f rest ih =>
    unfold keptTexts at h
    split at h
    · cases h
    · cases h
    · next o texts ho htexts =>
      cases h
      simp [ih htexts, ho]

theorem kept_eq_filterMap {fs : List (Place × Fate)} {kept : List String}
    (h : keptTexts source fs = .ok kept) :
    kept = fs.filterMap fun f => (keptText? source f.1.node f.2).toOption.join := by
  induction fs generalizing kept with
  | nil =>
    cases h
    rfl
  | cons f rest ih =>
    unfold keptTexts at h
    split at h
    · cases h
    · cases h
    · next o texts ho htexts =>
      cases h
      rw [List.filterMap_cons, ho, ← ih htexts]
      cases o with
      | none => rfl
      | some text => rfl

theorem exists_keptTexts {fs : List (Place × Fate)}
    (h : ∀ f ∈ fs, ∃ text, keptText? source f.1.node f.2 = .ok text) :
    ∃ kept, keptTexts source fs = .ok kept := by
  induction fs with
  | nil => exact ⟨[], rfl⟩
  | cons f rest ih =>
    rw [List.forall_mem_cons] at h
    obtain ⟨text, htext⟩ := h.1
    obtain ⟨kept, hkept⟩ := ih h.2
    exact ⟨text.toList ++ kept, by rw [keptTexts, htext, hkept]⟩

end Deadwood.Plan
