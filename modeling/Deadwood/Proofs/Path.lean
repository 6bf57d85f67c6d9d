import Deadwood.Path
import Mathlib.Data.List.Basic

/-!
Paths as they are read from texts. The text of such a path reads back as the path
(`ofString_toString`), and resolving a path leaves no `..`.
-/
namespace Deadwood

/-- A text stands for itself within a text. -/
theorem toString_text (s : String) : toString s = s := rfl

namespace Path

/-- What can stand between two slashes of a path. -/
def IsPart (part : String) : Prop := part ≠ "" ∧ part ≠ "." ∧ '/' ∉ part.toList

instance (part : String) : Decidable (IsPart part) := inferInstanceAs (Decidable (_ ∧ _))

/-- Written as a path that was read from a text. -/
structure Normal (p : Path) : Prop where
  slashes_le : p.slashes ≤ 2
  isPart : ∀ part ∈ p.parts, IsPart part

/-! ## Reading -/

theorem not_mem_of_mem_splitOn {cs piece : List Char} (h : piece ∈ cs.splitOn '/') :
    '/' ∉ piece := by
  induction cs generalizing piece with
  | nil =>
    rw [List.splitOn_nil, List.mem_singleton] at h
    exact h ▸ List.not_mem_nil
  | cons c cs ih =>
    rw [List.splitOn_cons_eq_if_modifyHead] at h
    split at h
    · rcases List.mem_cons.1 h with rfl | h
      · exact List.not_mem_nil
      · exact ih h
    · next hc =>
      cases hsplit : cs.splitOn '/' with
      | nil => simp [hsplit] at h
      | cons first rest =>
        rw [hsplit, List.modifyHead_cons] at h
        rcases List.mem_cons.1 h with rfl | h
        · rw [List.mem_cons, not_or]
          exact ⟨fun heq => hc (by simp [← heq]), ih (hsplit ▸ List.mem_cons_self)⟩
        · exact ih (hsplit ▸ List.mem_cons_of_mem _ h)

theorem isPart_of_mem_splitParts {cs : List Char} {part : String} (h : part ∈ splitParts cs) :
    IsPart part := by
  obtain ⟨hmem, hkept⟩ := List.mem_filter.1 h
  obtain ⟨piece, hpiece, rfl⟩ := List.mem_map.1 hmem
  simp only [decide_eq_true_eq] at hkept
  refine ⟨hkept.1, hkept.2, ?_⟩
  rw [String.toList_ofList]
  exact not_mem_of_mem_splitOn hpiece

theorem normal_ofString (text : String) : (ofString text).Normal where
  slashes_le := by
    simp only [ofString, rootOf]
    split <;> omega
  isPart _ := isPart_of_mem_splitParts

theorem splitParts_slashes (n : Nat) (cs : List Char) :
    splitParts (List.replicate n '/' ++ cs) = splitParts cs := by
  induction n with
  | zero => rfl
  | succ n ih =>
    rw [List.replicate_succ, List.cons_append, ← ih, splitParts, splitParts,
      List.splitOn_cons_eq_if_modifyHead, if_pos (beq_self_eq_true '/')]
    rfl

/-- Parts that are joined with a character none of them has are cut apart again. -/
theorem splitOn_intercalate {parts : List String} {separator : String} {c : Char}
    (hc : separator.toList = [c]) (h : ∀ part ∈ parts, c ∉ part.toList) (hparts : parts ≠ []) :
    (separator.intercalate parts).toList.splitOn c = parts.map String.toList := by
  rw [String.toList_intercalate, hc]
  exact List.splitOn_intercalate c (by simpa using h) (by simpa using hparts)

theorem splitParts_relativeText {p : Path} (h : ∀ part ∈ p.parts, IsPart part) :
    splitParts p.relativeText.toList = p.parts := by
  by_cases hparts : p.parts = []
  · rw [relativeText, hparts]
    rfl
  · have hsame : (p.parts.map String.toList).map String.ofList = p.parts := by simp
    have hslash : ∀ part ∈ p.parts, '/' ∉ part.toList := fun part hpart => (h part hpart).2.2
    rw [splitParts, relativeText, splitOn_intercalate rfl hslash hparts, hsame,
      List.filter_eq_self]
    exact fun part hpart => decide_eq_true ⟨(h part hpart).1, (h part hpart).2.1⟩

theorem head_relativeText {p : Path} (h : ∀ part ∈ p.parts, IsPart part) {c : Char}
    (hc : c ∈ p.relativeText.toList.head?) : c ≠ '/' := by
  rw [relativeText, String.toList_intercalate] at hc
  cases hparts : p.parts with
  | nil => simp [hparts] at hc
  | cons part rest =>
    obtain ⟨hne, -, hslash⟩ := h part (hparts ▸ List.mem_cons_self)
    obtain ⟨d, ds, hd⟩ := List.exists_cons_of_ne_nil (mt String.toList_eq_nil_iff.1 hne)
    rintro rfl
    have hhead : (List.intercalate "/".toList (p.parts.map String.toList)).head? = some d := by
      rw [hparts, List.map_cons, hd]
      cases rest with
      | nil => simp
      | cons => simp
    rw [hhead] at hc
    exact hslash (by simp_all)

theorem ofString_toString {p : Path} (h : p.Normal) : ofString p.toString = p := by
  unfold toString
  split
  · next hempty =>
    obtain ⟨slashes, parts⟩ := p
    obtain ⟨rfl, rfl⟩ := hempty
    rfl
  · have hlead : ((p.root ++ p.relativeText).toList.takeWhile (· = '/')).length = p.slashes := by
      rw [String.toList_append, root, String.toList_ofList, List.takeWhile_append_of_pos (by simp)]
      cases hrest : p.relativeText.toList with
      | nil => simp
      | cons c cs =>
        have hc : c ≠ '/' := head_relativeText h.isPart (by simp [hrest])
        simp [hc]
    have hparts : splitParts (p.root ++ p.relativeText).toList = p.parts := by
      rw [String.toList_append, root, String.toList_ofList, splitParts_slashes,
        splitParts_relativeText h.isPart]
    rw [ofString, hlead, hparts, rootOf, if_pos h.slashes_le]

/-- Parts joined by slashes read back as a relative path. -/
theorem ofString_intercalate {parts : List String} (h : ∀ part ∈ parts, IsPart part) :
    ofString ("/".intercalate parts) = ⟨0, parts⟩ := by
  cases parts with
  | nil => rfl
  | cons part rest =>
    have htext : toString ⟨0, part :: rest⟩ = "/".intercalate (part :: rest) := by
      simp [toString, root, relativeText]
    rw [← htext, ofString_toString ⟨Nat.zero_le 2, h⟩]

/-! ## Joining -/

theorem Normal.join {p q : Path} (hp : p.Normal) (hq : q.Normal) : (p.join q).Normal := by
  unfold Path.join
  split
  · exact hq
  · exact ⟨hp.slashes_le, List.forall_mem_append.2 ⟨hp.isPart, hq.isPart⟩⟩

theorem Normal.child {p : Path} (hp : p.Normal) {part : String} (hpart : IsPart part) :
    (p.child part).Normal :=
  ⟨hp.slashes_le, List.forall_mem_append.2 ⟨hp.isPart, by simpa using hpart⟩⟩

theorem join_assoc (p q r : Path) : p.join (q.join r) = (p.join q).join r := by
  unfold join isAbsolute
  split
  · rfl
  · dsimp only
    split
    · rfl
    · rw [List.append_assoc]

theorem isAbsolute_join {p : Path} (h : p.isAbsolute = true) (q : Path) :
    (p.join q).isAbsolute = true := by
  unfold join
  split
  · assumption
  · exact h

/-! ## Resolving -/

theorem ne_of_mem_foldl_climb {parts done : List String} (h : ∀ part ∈ done, part ≠ "..")
    {part : String} (hpart : part ∈ parts.foldl climb done) : part ≠ ".." := by
  induction parts generalizing done with
  | nil => exact h part hpart
  | cons a parts ih =>
    refine ih (fun b hb => ?_) hpart
    unfold climb at hb
    split at hb
    · exact h b (List.dropLast_subset _ hb)
    · next ha =>
      rcases List.mem_append.1 hb with hb | hb
      · exact h b hb
      · exact List.mem_singleton.1 hb ▸ ha

theorem foldl_climb_eq {parts : List String} (h : ∀ part ∈ parts, part ≠ "..")
    (done : List String) : parts.foldl climb done = done ++ parts := by
  induction parts generalizing done with
  | nil => simp
  | cons a parts ih =>
    rw [List.forall_mem_cons] at h
    rw [List.foldl_cons, climb, if_neg h.1, ih h.2, List.append_assoc, List.singleton_append]

theorem ne_up_of_mem_resolve {here p : Path} {part : String} (h : part ∈ (resolve here p).parts) :
    part ≠ ".." :=
  ne_of_mem_foldl_climb (by simp) h

/-- A path without `..` resolves to itself. -/
theorem resolve_resolve (here p : Path) : resolve here (resolve here p) = resolve here p := by
  have habsolute : here.join (resolve here p) = resolve here p := rfl
  have hclimbed : ∀ part ∈ (resolve here p).parts, part ≠ ".." := fun part => ne_up_of_mem_resolve
  rw [resolve, habsolute, foldl_climb_eq hclimbed, List.nil_append]
  rfl

theorem mem_of_mem_foldl_climb {parts done : List String} {part : String}
    (h : part ∈ parts.foldl climb done) : part ∈ done ∨ part ∈ parts := by
  induction parts generalizing done with
  | nil => exact .inl h
  | cons a parts ih =>
    rcases ih h with h | h
    · unfold climb at h
      split at h
      · exact .inl (List.dropLast_subset _ h)
      · rcases List.mem_append.1 h with h | h
        · exact .inl h
        · exact .inr (List.mem_singleton.1 h ▸ List.mem_cons_self)
    · exact .inr (List.mem_cons_of_mem _ h)

theorem normal_resolve {here p : Path} (hhere : here.Normal) (hp : p.Normal) :
    (resolve here p).Normal where
  slashes_le := show 1 ≤ 2 by decide
  isPart part hpart :=
    (hhere.join hp).isPart part ((mem_of_mem_foldl_climb hpart).resolve_left List.not_mem_nil)

theorem resolve_of_isAbsolute {p : Path} (h : p.isAbsolute = true) (here here' : Path) :
    resolve here p = resolve here' p := by
  rw [resolve, resolve, join, join, if_pos h, if_pos h]

theorem parts_resolve_join_eq_foldl (here p : Path) (parts : List String) :
    (resolve here (p.join ⟨0, parts⟩)).parts = parts.foldl climb (resolve here p).parts := by
  have hjoin : (here.join (p.join ⟨0, parts⟩)).parts = (here.join p).parts ++ parts := by
    rw [join_assoc]
    rfl
  rw [resolve, resolve, hjoin, List.foldl_append]

theorem parts_resolve_join (here p : Path) {parts : List String}
    (hparts : ∀ part ∈ parts, part ≠ "..") :
    (resolve here (p.join ⟨0, parts⟩)).parts = (resolve here p).parts ++ parts := by
  rw [parts_resolve_join_eq_foldl, foldl_climb_eq hparts]

theorem parts_resolve_child (here p : Path) {part : String} (hpart : part ≠ "..") :
    (resolve here (p.child part)).parts = (resolve here p).parts ++ [part] :=
  parts_resolve_join here p (by simpa using hpart)

theorem child_name {p : Path} (hparts : p.parts ≠ []) : p.parent.child p.name = p := by
  rw [parent, child, name, List.getLast?_eq_some_getLast hparts, Option.getD_some,
    List.dropLast_concat_getLast hparts]

theorem parent_of_parts_eq_nil {p : Path} (hparts : p.parts = []) : p.parent = p := by
  rw [parent, hparts]
  exact congrArg (Path.mk p.slashes) hparts.symm

/-- The last part of a path leads on from where the path above leads. -/
theorem parts_resolve_eq_climb (here : Path) {p : Path} (hparts : p.parts ≠ []) :
    (resolve here p).parts = climb (resolve here p.parent).parts p.name := by
  conv_lhs => rw [← child_name hparts]
  exact parts_resolve_join_eq_foldl here p.parent [p.name]

theorem parts_resolve_eq_concat (here : Path) {p : Path} (hparts : p.parts ≠ [])
    (hup : p.name ≠ "..") : (resolve here p).parts = (resolve here p.parent).parts ++ [p.name] := by
  rw [parts_resolve_eq_climb here hparts, climb, if_neg hup]

end Path

end Deadwood
