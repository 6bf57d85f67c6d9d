import Deadwood.Disk.Basic
import Deadwood.Proofs.Keyed
import Deadwood.Proofs.Path

/-!
What stands at a name of a disk: nothing, a directory or a file with its content, modes left out.
Where a path leads depends only on what stands on the way, and a change to one entry of a directory
shows at its name alone (`standing_put`).
-/
namespace Deadwood

inductive Standing
  | nothing
  | directory
  | file (content : Bytes)
  deriving DecidableEq, Repr

namespace Standing

theorem file_ne_directory (content : Bytes) : file content ≠ directory := nofun

theorem file_ne_nothing (content : Bytes) : file content ≠ nothing := nofun

theorem nothing_ne_directory : nothing ≠ directory := nofun

theorem directory_ne_nothing : directory ≠ nothing := nofun

end Standing

namespace Entry

def standing : Entry → Standing
  | .file _ content => .file content
  | .directory _ _ => .directory

theorem standing_withMode (m : Nat) (e : Entry) : (e.withMode m).standing = e.standing := by
  cases e <;> rfl

theorem standing_get?_withMode (m : Nat) (e : Entry) (names : List String) :
    ((e.withMode m).get? names).map standing = (e.get? names).map standing := by
  cases names with
  | nil => rw [get?_nil, get?_nil, Option.map_some, standing_withMode, Option.map_some]
  | cons name rest => cases e <;> rfl

/-- What belongs to an entry itself, which is all but what lies below it. -/
def own (e : Entry) : Nat × Standing := (e.mode, e.standing)

theorem get?_withMode_below (m : Nat) (e : Entry) (name : String) (rest : List String) :
    (e.withMode m).get? (name :: rest) = e.get? (name :: rest) := by
  cases e <;> rfl

theorem get?_append (e : Entry) (a b : List String) :
    e.get? (a ++ b) = (e.get? a).bind (·.get? b) := by
  induction a generalizing e with
  | nil => simp [get?_nil]
  | cons name a ih =>
    cases hchild : e.child? name with
    | none => simp [get?, hchild]
    | some c => simp [get?, hchild, ih]

/-- Nothing lies below a file. -/
theorem get?_cons_of_not_directory {e : Entry} (h : e.standing ≠ .directory) (name : String)
    (rest : List String) : e.get? (name :: rest) = none := by
  cases e with
  | file => rfl
  | directory => exact absurd rfl h

theorem child?_setChild (m : Nat) (entries : List (String × Entry)) (name other : String)
    (e : Option Entry) : ((Entry.directory m entries).setChild name e).child? other =
      if other = name then e else (Entry.directory m entries).child? other := by
  cases e with
  | none => exact Keyed.get?_erase entries name other
  | some e => exact Keyed.get?_set entries name other e

theorem standing_setChild (name : String) (e : Option Entry) (root : Entry) :
    (root.setChild name e).standing = root.standing := by
  cases root with
  | file => rfl
  | directory => cases e <;> rfl

theorem own_setChild (name : String) (e : Option Entry) (root : Entry) :
    (root.setChild name e).own = root.own := by
  cases root with
  | file => rfl
  | directory => cases e <;> rfl

variable {root : Entry} {dir : List String} {name : String} {m : Nat}
  {entries : List (String × Entry)}

theorem put_cons {c : Entry} (e : Option Entry) {above : String} (hc : root.child? above = some c) :
    root.put e (above :: (dir ++ [name])) =
      root.setChild above (some (c.put e (dir ++ [name]))) := by
  cases dir <;> simp [put, hc]

theorem exists_directory_of_get? {above : String} {rest : List String} {e : Entry}
    (h : root.get? (above :: rest) = some e) :
    ∃ m entries c, root = .directory m entries ∧ root.child? above = some c ∧
      c.get? rest = some e := by
  cases root with
  | file => cases h
  | directory m entries =>
    obtain ⟨c, hc, hrest⟩ := Option.bind_eq_some_iff.1 h
    exact ⟨m, entries, c, rfl, hc, hrest⟩

/-- What is put into a directory stands there with all that is below it. -/
theorem get?_put_below (hdir : root.get? dir = some (.directory m entries)) (e : Option Entry)
    (rest : List String) :
    (root.put e (dir ++ [name])).get? (dir ++ name :: rest) = e.bind (·.get? rest) := by
  induction dir generalizing root with
  | nil =>
    rw [get?_nil, Option.some.injEq] at hdir
    subst hdir
    rw [List.nil_append, List.nil_append, put, get?, child?_setChild, if_pos rfl]
  | cons above dir ih =>
    obtain ⟨m', entries', c, rfl, hc, hrest⟩ := exists_directory_of_get? hdir
    rw [List.cons_append, List.cons_append, put_cons e hc, get?, child?_setChild, if_pos rfl]
    exact ih hrest

/-- What is put into a directory shows nowhere but at its name and below. -/
theorem map_get?_put {β : Type} (f : Entry → β)
    (hf : ∀ name (e : Option Entry) root, f (Entry.setChild name e root) = f root)
    (hdir : root.get? dir = some (.directory m entries)) (e : Option Entry)
    {names : List String} (h : ¬ dir ++ [name] <+: names) :
    ((root.put e (dir ++ [name])).get? names).map f = (root.get? names).map f := by
  induction dir generalizing root names with
  | nil =>
    rw [get?_nil, Option.some.injEq] at hdir
    subst hdir
    rw [List.nil_append, put]
    cases names with
    | nil => rw [get?_nil, get?_nil, Option.map_some, hf, Option.map_some]
    | cons other rest =>
      have hne : other ≠ name := fun heq => h (by simp [heq])
      rw [get?, get?, child?_setChild, if_neg hne]
  | cons above dir ih =>
    obtain ⟨m', entries', c, rfl, hc, hrest⟩ := exists_directory_of_get? hdir
    rw [List.cons_append, put_cons e hc]
    cases names with
    | nil => rw [get?_nil, get?_nil, Option.map_some, hf, Option.map_some]
    | cons other rest =>
      rw [get?, get?, child?_setChild]
      split
      · next heq =>
        subst heq
        rw [hc]
        exact ih hrest fun hprefix => h (List.cons_prefix_cons.2 ⟨rfl, hprefix⟩)
      · rfl

theorem standing_get?_put (hdir : root.get? dir = some (.directory m entries)) (e : Option Entry)
    {names : List String} (h : ¬ dir ++ [name] <+: names) :
    ((root.put e (dir ++ [name])).get? names).map standing = (root.get? names).map standing :=
  map_get?_put standing standing_setChild hdir e h

theorem get?_directory_above {e : Entry} (h : root.get? (dir ++ [name]) = some e) :
    ∃ m entries, root.get? dir = some (.directory m entries) := by
  rw [get?_append] at h
  obtain ⟨above, habove, h⟩ := Option.bind_eq_some_iff.1 h
  obtain ⟨m, entries, -, rfl, -⟩ := exists_directory_of_get? h
  exact ⟨m, entries, habove⟩

/-- Another mode shows nowhere. -/
theorem standing_get?_put_withMode {e : Entry} {place : List String} (h : root.get? place = some e)
    (mode : Nat) (names : List String) :
    ((root.put (some (e.withMode mode)) place).get? names).map standing =
      (root.get? names).map standing := by
  rcases List.eq_nil_or_concat' place with rfl | ⟨dir, name, rfl⟩
  · rw [get?_nil, Option.some.injEq] at h
    subst h
    exact standing_get?_withMode mode root names
  · obtain ⟨m, entries, hdir⟩ := get?_directory_above h
    by_cases hbelow : dir ++ [name] <+: names
    · obtain ⟨rest, rfl⟩ := hbelow
      have hput : (root.put (some (e.withMode mode)) (dir ++ [name])).get? (dir ++ [name] ++ rest) =
          (e.withMode mode).get? rest := by
        rw [List.append_assoc]
        exact get?_put_below hdir _ rest
      rw [hput, get?_append, h, Option.bind_some, standing_get?_withMode]
    · exact standing_get?_put hdir _ hbelow

end Entry

namespace Disk

def standing (d : Disk) (names : List String) : Standing :=
  ((d.at? names).map Entry.standing).getD .nothing

variable {d d' : Disk} {names : List String}

theorem at?_append (d : Disk) (a b : List String) : d.at? (a ++ b) = (d.at? a).bind (·.get? b) :=
  Entry.get?_append d.root a b

theorem standing_eq_nothing_iff : d.standing names = .nothing ↔ d.at? names = none := by
  unfold standing
  cases d.at? names with
  | none => simp
  | some e => cases e <;> simp [Entry.standing]

theorem standing_eq_directory_iff :
    d.standing names = .directory ↔ ∃ m entries, d.at? names = some (.directory m entries) := by
  unfold standing
  cases d.at? names with
  | none => simp
  | some e => cases e <;> simp [Entry.standing]

theorem standing_eq_file_iff {content : Bytes} :
    d.standing names = .file content ↔ ∃ m, d.at? names = some (.file m content) := by
  unfold standing
  cases d.at? names with
  | none => simp
  | some e => cases e <;> simp [Entry.standing]

section File

variable {content : Bytes} (h : d.standing names = .file content)

include h

theorem ne_directory_of_file : d.standing names ≠ .directory := h ▸ Standing.file_ne_directory content

theorem ne_nothing_of_file : d.standing names ≠ .nothing := h ▸ Standing.file_ne_nothing content

end File

theorem nothing_below {a b : List String} (h : d.standing a ≠ .directory) (hb : b ≠ []) :
    d.standing (a ++ b) = .nothing := by
  obtain ⟨name, rest, rfl⟩ := List.exists_cons_of_ne_nil hb
  rw [standing_eq_nothing_iff, at?_append]
  unfold standing at h
  cases ha : d.at? a with
  | none => rfl
  | some e => exact Entry.get?_cons_of_not_directory (by simpa [ha] using h) name rest

theorem directory_above {a b : List String} (h : d.standing (a ++ b) ≠ .nothing) (hb : b ≠ []) :
    d.standing a = .directory :=
  Classical.byContradiction fun ha => h (nothing_below ha hb)

theorem directory_above_file {a b : List String} {content : Bytes}
    (h : d.standing (a ++ b) = .file content) (hb : b ≠ []) : d.standing a = .directory :=
  directory_above (ne_nothing_of_file h) hb

theorem ne_nothing_of_isPrefix {a b : List String} (h : d.standing b ≠ .nothing) (hab : a <+: b) :
    d.standing a ≠ .nothing := by
  obtain ⟨rest, rfl⟩ := hab
  by_cases hrest : rest = []
  · rwa [hrest, List.append_nil] at h
  · rw [directory_above h hrest]
    exact Standing.directory_ne_nothing

theorem directory_of_isPrefix {a b : List String} (h : d.standing b = .directory) (hab : a <+: b) :
    d.standing a = .directory := by
  obtain ⟨rest, rfl⟩ := hab
  by_cases hrest : rest = []
  · rwa [hrest, List.append_nil] at h
  · exact directory_above (h ▸ Standing.directory_ne_nothing) hrest

/-- All that stands below a name depends on the entry there. -/
theorem standing_append_of_at? {a : List String} (h : d.at? a = d'.at? a) (b : List String) :
    d.standing (a ++ b) = d'.standing (a ++ b) := by
  rw [standing, standing, at?_append, at?_append, h]

/-- A new entry without anything below it shows at its name, if no directory stood there. -/
theorem standing_put {dir : List String} {name : String} (hdir : d.standing dir = .directory)
    (hold : d.standing (dir ++ [name]) ≠ .directory) {e : Option Entry}
    (hleaf : ∀ below rest, e.bind (·.get? (below :: rest)) = none) (names : List String) :
    (d.put (dir ++ [name]) e).standing names =
      if names = dir ++ [name] then (e.map Entry.standing).getD .nothing
      else d.standing names := by
  obtain ⟨m, entries, hdir⟩ := standing_eq_directory_iff.1 hdir
  -- What stands below the name comes from the new entry, what stands elsewhere stays.
  by_cases hbelow : dir ++ [name] <+: names
  · obtain ⟨rest, rfl⟩ := hbelow
    have hput : (d.put (dir ++ [name]) e).at? (dir ++ [name] ++ rest) = e.bind (·.get? rest) := by
      rw [List.append_assoc]
      exact Entry.get?_put_below hdir e rest
    rw [standing, hput]
    cases rest with
    | nil => cases e <;> simp [Entry.get?_nil]
    | cons below rest =>
      rw [hleaf, if_neg (by simp), nothing_below hold (by simp)]
      rfl
  · have hput := Entry.standing_get?_put hdir e hbelow
    have hne : names ≠ dir ++ [name] := fun heq => hbelow (heq ▸ List.prefix_rfl)
    rw [if_neg hne]
    exact congrArg (·.getD .nothing) hput

/-! ## What belongs to one name -/

/-- What stands at a name with its mode, leaving out what is below it. -/
def own (d : Disk) (names : List String) : Option (Nat × Standing) := (d.at? names).map Entry.own

theorem standing_of_own (d : Disk) (names : List String) :
    d.standing names = ((d.own names).map Prod.snd).getD .nothing := by
  rw [own, Option.map_map]
  rfl

/-- An entry that is put in the place of another one, with the same below it, shows nowhere else. -/
theorem own_put {dir : List String} {name : String} (hdir : d.standing dir = .directory)
    {e : Option Entry} (hbelow : ∀ below rest, e.bind (·.get? (below :: rest)) =
      (d.at? (dir ++ [name])).bind (·.get? (below :: rest))) (hnames : names ≠ dir ++ [name]) :
    (d.put (dir ++ [name]) e).own names = d.own names := by
  obtain ⟨m, entries, hdir⟩ := standing_eq_directory_iff.1 hdir
  by_cases hinside : dir ++ [name] <+: names
  · obtain ⟨rest, rfl⟩ := hinside
    obtain ⟨below, rest, rfl⟩ := List.exists_cons_of_ne_nil (l := rest) (by simpa using hnames)
    have hput : (d.put (dir ++ [name]) e).at? (dir ++ [name] ++ below :: rest) =
        e.bind (·.get? (below :: rest)) := by
      rw [List.append_assoc]
      exact Entry.get?_put_below hdir e (below :: rest)
    rw [own, own, hput, hbelow, ← at?_append]
  · exact Entry.map_get?_put Entry.own Entry.own_setChild hdir e hinside

/-! ## Where a path leads -/

/-- One part of a path: up, or down to a name, which is a directory if more parts follow. -/
theorem settleFrom_cons_eq_ok {done : List String} {part : String} {rest : List String} :
    d.settleFrom done (part :: rest) = .ok names ↔
      part = ".." ∧ d.settleFrom done.dropLast rest = .ok names ∨
      part ≠ ".." ∧ part.utf8ByteSize ≤ maxNameSize ∧
        (rest = [] ∧ names = done ++ [part] ∨
          d.standing (done ++ [part]) = .directory ∧
            d.settleFrom (done ++ [part]) rest = .ok names) := by
  rw [settleFrom]
  by_cases hup : part = ".."
  · simp [hup]
  by_cases hsize : maxNameSize < part.utf8ByteSize
  · simp [hup, hsize, Nat.not_le.2 hsize]
  rw [standing]
  cases rest with
  | nil => cases d.at? (done ++ [part]) with
    | none => simp [hup, hsize, Nat.not_lt.1 hsize, eq_comm]
    | some e => cases e <;> simp [hup, hsize, Nat.not_lt.1 hsize, settleFrom, eq_comm]
  | cons next rest => cases d.at? (done ++ [part]) with
    | none => simp [hup, hsize]
    | some e => cases e <;> simp [hup, hsize, Nat.not_lt.1 hsize, Entry.standing]

/-- The parts after those that lead to a directory are followed from there. -/
theorem settleFrom_append {done a mid : List String} (ha : d.settleFrom done a = .ok mid)
    (hmid : d.standing mid = .directory) (b : List String) :
    d.settleFrom done (a ++ b) = d.settleFrom mid b := by
  induction a generalizing done with
  | nil =>
    cases ha
    rfl
  | cons part a ih =>
    rw [List.cons_append, settleFrom]
    rcases settleFrom_cons_eq_ok.1 ha with ⟨hup, ha⟩ | ⟨hup, hsize, ha⟩
    · rw [if_pos hup, ih ha]
    · have hdown : d.standing (done ++ [part]) = .directory ∧
          d.settleFrom (done ++ [part]) a = .ok mid := by
        rcases ha with ⟨rfl, rfl⟩ | ha
        · exact ⟨hmid, rfl⟩
        · exact ha
      obtain ⟨mode, entries, hat⟩ := standing_eq_directory_iff.1 hdown.1
      rw [if_neg hup, if_neg (Nat.not_lt.2 hsize), hat]
      exact ih hdown.2

/-- All beginnings of parts that lead to a directory lead to directories. -/
theorem directory_of_settleFrom {done parts init : List String}
    (hdone : d.standing done = .directory) (h : d.settleFrom done parts = .ok names)
    (hnames : d.standing names = .directory) (hinit : init <+: parts) :
    d.standing (init.foldl Path.climb done) = .directory := by
  induction init generalizing done parts with
  | nil => exact hdone
  | cons part init ih =>
    obtain ⟨rest, rfl⟩ := hinit
    rw [List.cons_append] at h
    rw [List.foldl_cons, Path.climb]
    rcases settleFrom_cons_eq_ok.1 h with ⟨hup, h⟩ | ⟨hup, -, ⟨hnil, rfl⟩ | ⟨hdown, h⟩⟩
    · rw [if_pos hup]
      exact ih (directory_of_isPrefix hdone (List.dropLast_prefix done)) h (List.prefix_append _ _)
    · rw [if_neg hup, (List.append_eq_nil_iff.1 hnil).1]
      exact hnames
    · rw [if_neg hup]
      exact ih hdown h (List.prefix_append _ _)

/-- Where a path leads if it leads anywhere, and what stands on the way there. -/
theorem settleFrom_eq_ok {done parts : List String} (hdone : d.standing done = .directory)
    (h : d.settleFrom done parts = .ok names) :
    names = parts.foldl Path.climb done ∧
      (d.standing names = .directory ∨ ∃ init last dir, parts = init ++ [last] ∧ last ≠ ".." ∧
        d.settleFrom done init = .ok dir ∧ d.standing dir = .directory ∧ names = dir ++ [last]) := by
  induction parts generalizing done with
  | nil =>
    cases h
    exact ⟨rfl, .inl hdone⟩
  | cons part rest ih =>
    rcases settleFrom_cons_eq_ok.1 h with ⟨hup, h⟩ | ⟨hup, hsize, ⟨rfl, rfl⟩ | ⟨hdown, h⟩⟩
    · have hclimb : Path.climb done part = done.dropLast := if_pos hup
      obtain ⟨hnames, hwhere⟩ := ih (directory_of_isPrefix hdone (List.dropLast_prefix done)) h
      refine ⟨by rw [List.foldl_cons, hclimb, hnames], hwhere.imp_right ?_⟩
      rintro ⟨init, last, dir, rfl, hlast, hinit, hdir, hconcat⟩
      exact ⟨part :: init, last, dir, rfl, hlast,
        settleFrom_cons_eq_ok.2 (.inl ⟨hup, hinit⟩), hdir, hconcat⟩
    · have hclimb : Path.climb done part = done ++ [part] := if_neg hup
      exact ⟨by rw [List.foldl_cons, hclimb, List.foldl_nil],
        .inr ⟨[], part, done, rfl, hup, rfl, hdone, rfl⟩⟩
    · have hclimb : Path.climb done part = done ++ [part] := if_neg hup
      obtain ⟨hnames, hwhere⟩ := ih hdown h
      refine ⟨by rw [List.foldl_cons, hclimb, hnames], hwhere.imp_right ?_⟩
      rintro ⟨init, last, dir, rfl, hlast, hinit, hdir, hconcat⟩
      exact ⟨part :: init, last, dir, rfl, hlast,
        settleFrom_cons_eq_ok.2 (.inr ⟨hup, hsize, .inr ⟨hdown, hinit⟩⟩), hdir, hconcat⟩

theorem settleFrom_mono (hdirs : ∀ n, d.standing n = .directory → d'.standing n = .directory)
    {done parts : List String} (h : d.settleFrom done parts = .ok names) :
    d'.settleFrom done parts = .ok names := by
  induction parts generalizing done with
  | nil => exact h
  | cons part rest ih =>
    rw [settleFrom_cons_eq_ok] at h ⊢
    rcases h with ⟨hup, h⟩ | ⟨hup, hsize, h | ⟨hdown, h⟩⟩
    · exact .inl ⟨hup, ih h⟩
    · exact .inr ⟨hup, hsize, .inl h⟩
    · exact .inr ⟨hup, hsize, .inr ⟨hdirs _ hdown, ih h⟩⟩

theorem settle_eq_ok_iff {p : Path} : d.settle p = .ok names ↔
    p.hasNull = false ∧ p.toString.utf8ByteSize ≤ maxPathSize ∧
      d.settleFrom [] (d.here.join p).parts = .ok names := by
  unfold settle
  by_cases hnull : p.hasNull = true
  · simp [hnull]
  by_cases hsize : maxPathSize < p.toString.utf8ByteSize
  · simp [hnull, hsize, Nat.not_le.2 hsize]
  · cases d.settleFrom [] (d.here.join p).parts <;>
      simp [hnull, hsize, Nat.not_lt.1 hsize, Except.mapError]

/-- A path that leads somewhere leads there as long as no directory goes. -/
theorem settle_mono {p : Path} (hhere : d'.here = d.here)
    (hdirs : ∀ n, d.standing n = .directory → d'.standing n = .directory)
    (h : d.settle p = .ok names) : d'.settle p = .ok names := by
  rw [settle_eq_ok_iff] at h ⊢
  exact ⟨h.1, h.2.1, hhere ▸ settleFrom_mono hdirs h.2.2⟩

theorem parts_of_settle {p : Path} (hroot : d.standing [] = .directory)
    (h : d.settle p = .ok names) : names = (Path.resolve d.here p).parts :=
  (settleFrom_eq_ok hroot (settle_eq_ok_iff.1 h).2.2).1

/-- The last part of a path to what is no directory is a name. -/
theorem name_ne_up_of_settle {p : Path} (hroot : d.standing [] = .directory)
    (h : d.settle p = .ok names) (hnames : d.standing names ≠ .directory) (hparts : p.parts ≠ []) :
    p.name ≠ ".." := by
  obtain ⟨-, hwhere | ⟨init, last, -, hjoin, hlast, -⟩⟩ :=
    settleFrom_eq_ok hroot (settle_eq_ok_iff.1 h).2.2
  · exact absurd hwhere hnames
  · have hends : (d.here.join p).parts.getLast? = p.parts.getLast? := by
      unfold Path.join
      split
      · rfl
      · rw [List.getLast?_append_of_ne_nil _ hparts]
    rw [Path.name, ← hends, hjoin, List.getLast?_concat]
    exact hlast

/-- What is no directory stands in one. -/
theorem exists_parent_of_settle {p : Path} (hroot : d.standing [] = .directory)
    (h : d.settle p = .ok names) (hnames : d.standing names ≠ .directory) :
    ∃ dir name, names = dir ++ [name] ∧ d.standing dir = .directory := by
  obtain ⟨-, hwhere | ⟨-, last, dir, -, -, -, hdir, rfl⟩⟩ :=
    settleFrom_eq_ok hroot (settle_eq_ok_iff.1 h).2.2
  · exact absurd hwhere hnames
  · exact ⟨dir, last, rfl, hdir⟩

end Disk

end Deadwood
