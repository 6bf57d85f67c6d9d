import Deadwood.Text.Icons
import Mathlib.Data.List.Infix
import Mathlib.Data.List.MinMax

/-!
Texts without icons. The icons are replaced one after another, each wherever it stands by then. What
comes of it is what one pass from the left gives that takes the longest icon at each place
(`Scans.foldl_replace`), and no icon is left in it (`Scans.not_isInfix`). Both rest on how icons and
plain forms are spelled (`Separate`), and `sanitize_takes_longest` says so of the icons that are used.
-/
namespace Deadwood.Icons

/-! ## Replacing one icon -/

section One

variable {icon : String} {c : Char} {cs xs : List Char}

theorem replaceFrom_eq_drop (icon plain : List Char) (skip : Nat) (cs : List Char) :
    replaceFrom icon plain skip cs = replaceFrom icon plain 0 (cs.drop skip) := by
  induction cs generalizing skip with
  | nil => rw [List.drop_nil, replaceFrom, replaceFrom]
  | cons c cs ih =>
    cases skip with
    | zero => rfl
    | succ k => rw [replaceFrom, ih, List.drop_succ_cons]

theorem replace_append (h : icon.toList ≠ []) (plain : String) (cs : List Char) :
    replace icon plain (icon.toList ++ cs) = plain.toList ++ replace icon plain cs := by
  obtain ⟨c, tail, htail⟩ := List.exists_cons_of_ne_nil h
  have hstarts : (c :: tail).isPrefixOf (c :: (tail ++ cs)) = true := by
    rw [List.isPrefixOf_iff_prefix]
    exact List.prefix_append (c :: tail) cs
  have hrest : (tail ++ cs).drop ((c :: tail).length - 1) = cs := List.drop_left
  rw [replace, replace, htail, List.cons_append, replaceFrom, if_pos hstarts, replaceFrom_eq_drop,
    hrest]

theorem replace_cons (h : ¬ icon.toList <+: c :: cs) (plain : String) :
    replace icon plain (c :: cs) = c :: replace icon plain cs := by
  rw [← List.isPrefixOf_iff_prefix] at h
  rw [replace, replaceFrom, if_neg h]
  rfl

theorem not_isPrefix_cons (h : icon.toList ≠ []) (hc : icon.toList.head? ≠ some c) :
    ¬ icon.toList <+: c :: cs := by
  obtain ⟨d, tail, htail⟩ := List.exists_cons_of_ne_nil h
  rw [htail] at hc ⊢
  intro hstarts
  exact hc (congrArg some (List.cons_prefix_cons.1 hstarts).1)

/-- What has no first character of an icon is passed over. -/
theorem replace_append_of_apart (h : icon.toList ≠ [])
    (hxs : ∀ c ∈ xs, icon.toList.head? ≠ some c) (plain : String) (cs : List Char) :
    replace icon plain (xs ++ cs) = xs ++ replace icon plain cs := by
  induction xs with
  | nil => rfl
  | cons c xs ih =>
    obtain ⟨hc, hxs⟩ := List.forall_mem_cons.1 hxs
    rw [List.cons_append, replace_cons (not_isPrefix_cons h hc), ih hxs, List.cons_append]

/-- What an icon does not start is passed over if no icon starts inside. -/
theorem replace_append_of_not_isPrefix (h : icon.toList ≠ []) (hstarts : ¬ icon.toList <+: xs ++ cs)
    (htail : ∀ c ∈ xs.tail, icon.toList.head? ≠ some c) (plain : String) :
    replace icon plain (xs ++ cs) = xs ++ replace icon plain cs := by
  cases xs with
  | nil => rfl
  | cons c xs =>
    rw [List.tail_cons] at htail
    rw [List.cons_append] at hstarts ⊢
    rw [replace_cons hstarts, replace_append_of_apart h htail, List.cons_append]

theorem isInfix_of_append (h : icon.toList ≠ []) (hxs : ∀ c ∈ xs, icon.toList.head? ≠ some c)
    (hin : icon.toList <:+: xs ++ cs) : icon.toList <:+: cs := by
  induction xs with
  | nil => exact hin
  | cons c xs ih =>
    obtain ⟨hc, hxs⟩ := List.forall_mem_cons.1 hxs
    rw [List.cons_append, List.infix_cons_iff] at hin
    exact ih hxs (hin.resolve_left (not_isPrefix_cons h hc))

theorem replace_of_not_isInfix (h : ¬ icon.toList <:+: cs) (plain : String) :
    replace icon plain cs = cs := by
  induction cs with
  | nil => rfl
  | cons c cs ih =>
    rw [List.infix_cons_iff, not_or] at h
    rw [replace_cons h.1, ih h.2]

theorem foldl_replace_of_not_isInfix {entries : List (String × String)}
    (h : ∀ e ∈ entries, ¬ e.1.toList <:+: cs) :
    entries.foldl (fun cs e => replace e.1 e.2 cs) cs = cs := by
  induction entries with
  | nil => rfl
  | cons e entries ih =>
    obtain ⟨he, hentries⟩ := List.forall_mem_cons.1 h
    rw [List.foldl_cons, replace_of_not_isInfix he, ih hentries]

end One

variable {entries done todo : List (String × String)} {e f : String × String} {cs xs : List Char}

/-! ## The pass that takes the longest icon -/

/-- What a text is made of: icons, each with its plain form, and other characters. -/
inductive Piece
  | icon (entry : String × String)
  | other (c : Char)

namespace Piece

def source : Piece → List Char
  | .icon e => e.1.toList
  | .other c => [c]

def shown : Piece → List Char
  | .icon e => e.2.toList
  | .other c => [c]

def other? : Piece → Option Char
  | .icon _ => none
  | .other c => some c

end Piece

/-- Of the icons that a text starts with, the longest. -/
def longest? (entries : List (String × String)) (cs : List Char) : Option (String × String) :=
  (entries.filter (·.1.toList.isPrefixOf cs)).argmax (·.1.length)

/-- Goes through a text from the left and takes the longest icon wherever one starts. -/
def pieces (entries : List (String × String)) : List Char → List Piece
  | [] => []
  | c :: cs =>
    match longest? entries (c :: cs) with
    | some e => .icon e :: pieces entries (cs.drop (e.1.length - 1))
    | none => .other c :: pieces entries cs
termination_by cs => cs.length

/-- A text cut into pieces, at each place the longest icon or, if none starts there, a character. -/
inductive Scans (entries : List (String × String)) : List Char → List Piece → Prop
  | done : Scans entries [] []
  | icon (e : String × String) (cs : List Char) (ps : List Piece) : e ∈ entries →
      (∀ f ∈ entries, f.1.toList <+: e.1.toList ++ cs → f.1.length ≤ e.1.length) →
      Scans entries cs ps → Scans entries (e.1.toList ++ cs) (.icon e :: ps)
  | other (c : Char) (cs : List Char) (ps : List Piece) :
      (∀ f ∈ entries, ¬ f.1.toList <+: c :: cs) →
      Scans entries cs ps → Scans entries (c :: cs) (.other c :: ps)

variable {ps : List Piece}

theorem mem_starting :
    e ∈ entries.filter (·.1.toList.isPrefixOf cs) ↔ e ∈ entries ∧ e.1.toList <+: cs := by
  rw [List.mem_filter, List.isPrefixOf_iff_prefix]

theorem longest?_eq_some (h : longest? entries cs = some e) :
    e ∈ entries ∧ e.1.toList <+: cs ∧
      ∀ f ∈ entries, f.1.toList <+: cs → f.1.length ≤ e.1.length := by
  obtain ⟨he, hstarts⟩ := mem_starting.1 (List.argmax_mem h)
  refine ⟨he, hstarts, ?_⟩
  intro f hf hfstarts
  exact (List.le_of_mem_argmax (mem_starting.2 ⟨hf, hfstarts⟩) h :)

theorem longest?_eq_none (h : longest? entries cs = none) :
    ∀ f ∈ entries, ¬ f.1.toList <+: cs := by
  intro f hf hstarts
  rw [longest?, List.argmax_eq_none] at h
  exact List.not_mem_nil (h ▸ mem_starting.2 ⟨hf, hstarts⟩)

theorem scans_pieces (hne : ∀ e ∈ entries, e.1.toList ≠ []) (cs : List Char) :
    Scans entries cs (pieces entries cs) := by
  induction cs using pieces.induct entries with
  | case1 =>
    rw [pieces]
    exact .done
  | case2 c cs e hlongest ih =>
    obtain ⟨he, ⟨rest, hrest⟩, hmost⟩ := longest?_eq_some hlongest
    have hdrop : cs.drop (e.1.length - 1) = rest := by
      obtain ⟨d, tail, htail⟩ := List.exists_cons_of_ne_nil (hne e he)
      rw [htail, List.cons_append, List.cons.injEq] at hrest
      rw [← String.length_toList, htail, ← hrest.2]
      exact List.drop_left
    rw [hdrop] at ih
    rw [pieces, hlongest]
    dsimp only
    rw [hdrop]
    rw [← hrest] at hmost ⊢
    exact .icon e rest _ he hmost ih
  | case3 c cs hnone ih =>
    rw [pieces, hnone]
    exact .other c cs _ (longest?_eq_none hnone) ih

/-- The pieces are those of the text, each at its place. -/
theorem Scans.source (h : Scans entries cs ps) : ps.flatMap Piece.source = cs := by
  induction h with
  | done => rfl
  | icon e cs ps _ _ _ ih => rw [List.flatMap_cons, ih, Piece.source]
  | other c cs ps _ _ ih => rw [List.flatMap_cons, ih, Piece.source, List.singleton_append]

theorem other_sublist (ps : List Piece) :
    (ps.filterMap Piece.other?).Sublist (ps.flatMap Piece.shown) := by
  induction ps with
  | nil => exact .slnil
  | cons p ps ih =>
    cases p with
    | icon e => exact ih.trans (List.sublist_append_right _ _)
    | other c => exact ih.cons_cons c

/-! ## Replacing all icons -/

/-- Icons and plain forms have no character in common, no icon starts inside another, and none that
is replaced earlier starts a later one. -/
structure Separate (entries : List (String × String)) : Prop where
  icon_ne_nil : ∀ e ∈ entries, e.1.toList ≠ []
  plain_ne_nil : ∀ e ∈ entries, e.2.toList ≠ []
  apart : ∀ e ∈ entries, ∀ c ∈ e.1.toList, ∀ f ∈ entries, c ∉ f.2.toList
  inside : ∀ e ∈ entries, ∀ f ∈ entries, ∀ c ∈ f.1.toList.tail, e.1.toList.head? ≠ some c
  ordered : entries.Pairwise fun e f => ¬ e.1.toList <+: f.1.toList

theorem lt_of_mem_plain {c : Char} (he : e ∈ table) (hc : c ∈ e.2.toList) : c.toNat < 128 := by
  have hall : (table.all fun e => e.2.toList.all (·.toNat < 128)) = true := by decide
  exact of_decide_eq_true (List.all_eq_true.1 (List.all_eq_true.1 hall e he) c hc)

theorem le_of_mem_icon {c : Char} (he : e ∈ table) (hc : c ∈ e.1.toList) : 128 ≤ c.toNat := by
  have hall : (table.all fun e => e.1.toList.all (128 ≤ ·.toNat)) = true := by decide
  exact of_decide_eq_true (List.all_eq_true.1 (List.all_eq_true.1 hall e he) c hc)

/-- A second character is the variation selector. -/
theorem eq_selector_of_mem_tail {c : Char} (he : e ∈ table) (hc : c ∈ e.1.toList.tail) :
    c = '\uFE0F' := by
  have hall : (table.all fun e => e.1.toList.tail.all (· = '\uFE0F')) = true := by decide
  exact of_decide_eq_true (List.all_eq_true.1 (List.all_eq_true.1 hall e he) c hc)

theorem head_ne_selector : ∀ e ∈ table, e.1.toList.head? ≠ some '\uFE0F' := by decide

/-- Plain forms are ASCII, icons have none of it, and none starts with a variation selector. -/
theorem separate_table : Separate table where
  icon_ne_nil := by decide
  plain_ne_nil := by decide
  apart := by
    intro e he c hc f hf hcf
    have hlt := lt_of_mem_plain hf hcf
    have hle := le_of_mem_icon he hc
    omega
  inside := by
    intro e he f hf c hc
    rw [eq_selector_of_mem_tail hf hc]
    exact head_ne_selector e he
  ordered := by decide +kernel

theorem Separate.head_apart (h : Separate entries) (he : e ∈ entries) (hf : f ∈ entries) :
    ∀ c ∈ f.2.toList, e.1.toList.head? ≠ some c := by
  intro c hc hhead
  exact h.apart e he c (List.mem_of_mem_head? hhead) f hf hc

/-- A text of which the icons of some entries have been replaced. -/
def written (done : List (String × String)) : List Piece → List Char
  | [] => []
  | .icon e :: ps => (if e ∈ done then e.2.toList else e.1.toList) ++ written done ps
  | .other c :: ps => c :: written done ps

theorem written_icon_of_mem (h : e ∈ done) (ps : List Piece) :
    written done (.icon e :: ps) = e.2.toList ++ written done ps := by
  rw [written, if_pos h]

theorem written_icon_of_not_mem (h : e ∉ done) (ps : List Piece) :
    written done (.icon e :: ps) = e.1.toList ++ written done ps := by
  rw [written, if_neg h]

theorem Scans.written_nil (h : Scans entries cs ps) : written [] ps = cs := by
  induction h with
  | done => rfl
  | icon e cs ps _ _ _ ih => rw [written_icon_of_not_mem List.not_mem_nil, ih]
  | other c cs ps _ _ ih => rw [written, ih]

theorem Scans.written_entries (h : Scans entries cs ps) :
    written entries ps = ps.flatMap Piece.shown := by
  induction h with
  | done => rfl
  | icon e cs ps he _ _ ih => rw [written_icon_of_mem he, ih, List.flatMap_cons, Piece.shown]
  | other c cs ps _ _ ih =>
    rw [written, ih, List.flatMap_cons, Piece.shown, List.singleton_append]

/-- What starts a text and has no character of a plain form started it before. -/
theorem Scans.isPrefix_of_written (h : Scans entries cs ps)
    (hne : ∀ f ∈ done, f.2.toList ≠ []) (hxs : ∀ c ∈ xs, ∀ f ∈ done, c ∉ f.2.toList)
    (hstarts : xs <+: written done ps) : xs <+: cs := by
  induction h generalizing xs with
  | done => exact hstarts
  | icon f cs ps _ _ _ ih =>
    by_cases hf : f ∈ done
    · -- The plain form would have the first character of `xs`.
      obtain ⟨d, tail, htail⟩ := List.exists_cons_of_ne_nil (hne f hf)
      rw [written_icon_of_mem hf, htail, List.cons_append] at hstarts
      cases xs with
      | nil => exact List.nil_prefix
      | cons c xs =>
        obtain ⟨rfl, -⟩ := List.cons_prefix_cons.1 hstarts
        exact absurd (htail ▸ List.mem_cons_self) (hxs c List.mem_cons_self f hf)
    · rw [written_icon_of_not_mem hf] at hstarts
      rcases List.prefix_or_prefix_of_prefix hstarts (List.prefix_append _ _) with hle | ⟨ys, rfl⟩
      · exact hle.trans (List.prefix_append _ _)
      · rw [List.prefix_append_right_inj] at hstarts ⊢
        exact ih (List.forall_mem_append.1 hxs).2 hstarts
  | other c cs ps _ _ ih =>
    cases xs with
    | nil => exact List.nil_prefix
    | cons d xs =>
      rw [written, List.cons_prefix_cons] at hstarts
      rw [List.cons_prefix_cons]
      exact ⟨hstarts.1, ih (List.forall_mem_cons.1 hxs).2 hstarts.2⟩

/-- No replacement makes an icon. -/
theorem Scans.icon_of_written (h : Scans entries cs ps) (hsep : Separate entries)
    (hdone : done ⊆ entries) (he : e ∈ entries) (hstarts : e.1.toList <+: written done ps) :
    e.1.toList <+: cs := by
  apply h.isPrefix_of_written _ _ hstarts
  · intro f hf
    exact hsep.plain_ne_nil f (hdone hf)
  · intro c hc f hf
    exact hsep.apart e he c hc f (hdone hf)

/-- One replacement changes the icons of one entry, all of them and nothing else. -/
theorem Scans.replace_written (h : Scans entries cs ps) (hsep : Separate entries)
    (hsplit : entries = done ++ e :: todo) :
    replace e.1 e.2 (written done ps) = written (done ++ [e]) ps := by
  have hdone : done ⊆ entries := hsplit ▸ List.subset_append_left _ _
  have he : e ∈ entries := hsplit ▸ List.mem_append_right _ List.mem_cons_self
  have hne : e.1.toList ≠ [] := hsep.icon_ne_nil e he
  have hordered : ∀ f ∈ todo, ¬ e.1.toList <+: f.1.toList := by
    have hpairwise := hsep.ordered
    rw [hsplit, List.pairwise_append] at hpairwise
    exact List.pairwise_cons.1 hpairwise.2.1 |>.1
  induction h with
  | done => rfl
  | icon f cs ps hf hmost hscans ih =>
    by_cases hbefore : f ∈ done
    · rw [written_icon_of_mem hbefore, written_icon_of_mem (List.mem_append_left _ hbefore),
        replace_append_of_apart hne (hsep.head_apart he hf), ih]
    · by_cases hnow : f = e
      · rw [written_icon_of_not_mem hbefore, hnow,
          written_icon_of_mem (List.mem_append_right _ List.mem_cons_self), replace_append hne, ih]
      · -- An icon that stays is the longest at its place, and a later one is not longer.
        have hlater : f ∈ todo := by
          rw [hsplit, List.mem_append, List.mem_cons] at hf
          exact (hf.resolve_left hbefore).resolve_left hnow
        have hstays : f ∉ done ++ [e] := by
          rw [List.mem_append, List.mem_singleton]
          exact not_or.2 ⟨hbefore, hnow⟩
        have hstarts : ¬ e.1.toList <+: f.1.toList ++ written done ps := by
          intro hstarts
          rw [← written_icon_of_not_mem hbefore] at hstarts
          have hstarts := (Scans.icon f cs ps hf hmost hscans).icon_of_written hsep hdone he hstarts
          have hle := hmost e he hstarts
          rw [← String.length_toList, ← String.length_toList] at hle
          exact hordered f hlater
            (List.prefix_of_prefix_length_le hstarts (List.prefix_append _ _) hle)
        rw [written_icon_of_not_mem hbefore, written_icon_of_not_mem hstays, ← ih]
        exact replace_append_of_not_isPrefix hne hstarts (hsep.inside e he f hf) e.2
  | other c cs ps hnone hscans ih =>
    have hstarts : ¬ e.1.toList <+: c :: written done ps := by
      intro hstarts
      exact hnone e he ((Scans.other c cs ps hnone hscans).icon_of_written hsep hdone he hstarts)
    rw [written, written, replace_cons hstarts, ih]

/-- Replacing one entry after another takes the pieces to their plain forms. -/
theorem Scans.foldl_replace (h : Scans entries cs ps) (hsep : Separate entries)
    (hsplit : entries = done ++ todo) :
    todo.foldl (fun cs e => replace e.1 e.2 cs) (written done ps) = written entries ps := by
  induction todo generalizing done with
  | nil => rw [List.foldl_nil, hsplit, List.append_nil]
  | cons e todo ih =>
    rw [List.foldl_cons, h.replace_written hsep hsplit]
    apply ih
    rw [hsplit, List.append_assoc, List.singleton_append]

theorem Scans.not_isInfix (h : Scans entries cs ps) (hsep : Separate entries) (he : e ∈ entries) :
    ¬ e.1.toList <:+: written entries ps := by
  have hne : e.1.toList ≠ [] := hsep.icon_ne_nil e he
  induction h with
  | done =>
    rw [written, List.infix_nil]
    exact hne
  | icon f cs ps hf _ _ ih =>
    rw [written_icon_of_mem hf]
    intro hin
    exact ih (isInfix_of_append hne (hsep.head_apart he hf) hin)
  | other c cs ps hnone hscans ih =>
    rw [written, List.infix_cons_iff, not_or]
    refine ⟨?_, ih⟩
    intro hstarts
    exact hnone e he ((Scans.other c cs ps hnone hscans).icon_of_written hsep
      (List.Subset.refl _) he hstarts)

/-! ## Sanitizing -/

theorem plainText_toList (text : String) :
    (plainText text).toList = (pieces table text.toList).flatMap Piece.shown := by
  have hscans := scans_pieces separate_table.icon_ne_nil text.toList
  have hfold := hscans.foldl_replace separate_table (List.nil_append table).symm
  rw [hscans.written_nil, hscans.written_entries] at hfold
  rw [plainText, String.toList_ofList]
  exact hfold

theorem plainText_of_not_isInfix {text : String}
    (h : ∀ e ∈ table, ¬ e.1.toList <:+: text.toList) : plainText text = text := by
  have hfold := foldl_replace_of_not_isInfix h
  rw [plainText]
  exact (congrArg String.ofList hfold).trans String.ofList_toList

theorem not_isInfix_plainText (text : String) (he : e ∈ table) :
    ¬ e.1.toList <:+: (plainText text).toList := by
  have hscans := scans_pieces separate_table.icon_ne_nil text.toList
  rw [plainText_toList, ← hscans.written_entries]
  exact hscans.not_isInfix separate_table he

theorem plainText_plainText (text : String) : plainText (plainText text) = plainText text :=
  plainText_of_not_isInfix fun _ he => not_isInfix_plainText text he

/-- For a terminal that cannot show icons, a text is cut from the left into the longest icons and
the characters between them, and of this the icons alone change, each to its plain form. No icon is
left, so doing it again changes nothing. -/
theorem sanitize_takes_longest (encoding text : String) (h : showsIcons encoding = false) :
    let ps := pieces table text.toList;
    Scans table text.toList ps ∧ ps.flatMap Piece.source = text.toList ∧
    (sanitize encoding text).toList = ps.flatMap Piece.shown ∧
    (ps.filterMap Piece.other?).Sublist (sanitize encoding text).toList ∧
    (∀ e ∈ table, ¬ e.1.toList <:+: (sanitize encoding text).toList) ∧
    sanitize encoding (sanitize encoding text) = sanitize encoding text := by
  intro ps
  have hscans : Scans table text.toList ps := scans_pieces separate_table.icon_ne_nil text.toList
  have hplain : ∀ text, sanitize encoding text = plainText text := by
    intro text
    rw [sanitize, h, if_neg Bool.false_ne_true]
  rw [hplain, hplain, plainText_plainText, plainText_toList]
  refine ⟨hscans, hscans.source, rfl, other_sublist ps, ?_, rfl⟩
  intro e he
  rw [← plainText_toList]
  exact not_isInfix_plainText text he

/-- A sign with and without its variation selector: a warning has an icon for both, a building one
for the first alone. -/
theorem sanitize_takes_longest_sample : showsIcons "cp1252" = false ∧
    sanitize "cp1252" "⚠️⚠ 🏗️🏗" = "[WARN][WARN] [BUILD]🏗" ∧
    sanitize "cp1252" "[WARN][WARN] [BUILD]🏗" = "[WARN][WARN] [BUILD]🏗" ∧
    (pieces table "⚠️⚠ 🏗️🏗".toList).flatMap Piece.shown =
      "[WARN][WARN] [BUILD]🏗".toList := by
  have hshows : showsIcons "cp1252" = false := by decide +kernel
  have hplain : sanitize "cp1252" "⚠️⚠ 🏗️🏗" = "[WARN][WARN] [BUILD]🏗" := by decide +kernel
  obtain ⟨-, -, hpass, -, -, htwice⟩ := sanitize_takes_longest "cp1252" "⚠️⚠ 🏗️🏗" hshows
  rw [hplain] at hpass htwice
  exact ⟨hshows, hplain, htwice, hpass.symm⟩

end Deadwood.Icons
