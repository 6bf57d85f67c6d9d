import Deadwood.Disk.Action
import Deadwood.Proofs.Disk.Standing

/-!
What the operations of a disk do. Each of them finds where its path leads, and what it writes, moves
or takes away shows there and nowhere else.
-/
namespace Deadwood

theorem bind_eq_ok {ε α β : Type} {x : Except ε α} {next : α → Except ε β} {b : β} :
    (x >>= next) = .ok b ↔ ∃ a, x = .ok a ∧ next a = .ok b := by
  cases x <;> simp [bind, Except.bind]

theorem eq_ok_of_toOption {ε α : Type} {r : Except ε α} {a : α} (h : r.toOption = some a) :
    r = .ok a := by
  cases r with
  | error e => cases h
  | ok b => exact congrArg Except.ok (Option.some.inj h)

namespace Disk

namespace Action

variable {ε α : Type} {d d' : Disk}

theorem change_eq_ok {f : Disk → Except ε Disk} {u : Unit} :
    change f d = (.ok u, d') ↔ f d = .ok d' := by
  unfold change
  cases f d with
  | error e => exact ⟨nofun, nofun⟩
  | ok after =>
    constructor
    · rintro ⟨⟩
      rfl
    · rintro ⟨⟩
      rfl

theorem bind_of_ok {β : Type} {act : Action ε α} {next : α → Action ε β} {a : α}
    (h : act d = (.ok a, d')) : (act >>= next) d = next a d' := by
  simp only [bind, ExceptT.bind, ExceptT.mk, StateT.bind, ExceptT.bindCont, h]

theorem bind_of_error {β : Type} {act : Action ε α} {next : α → Action ε β} {e : ε}
    (h : act d = (.error e, d')) : (act >>= next) d = (.error e, d') := by
  simp only [bind, ExceptT.bind, ExceptT.mk, StateT.bind, ExceptT.bindCont, h]
  rfl

theorem ask_eq_ok {f : Disk → Except ε α} {a : α} :
    ask f d = (.ok a, d') ↔ f d = .ok a ∧ d = d' :=
  Prod.mk.injEq .. ▸ Iff.rfl

end Action

variable {d d' : Disk} {p : Path} {names : List String} {content : Bytes}

/-- The same disk but for what stands at one name. -/
structure Becomes (d d' : Disk) (names : List String) (s : Standing) : Prop where
  here : d'.here = d.here
  standing : ∀ n, d'.standing n = if n = names then s else d.standing n

namespace Becomes

variable {s : Standing} (h : d.Becomes d' names s)

include h

theorem self : d'.standing names = s := by rw [h.standing, if_pos rfl]

theorem other {n : List String} (hn : n ≠ names) : d'.standing n = d.standing n := by
  rw [h.standing, if_neg hn]

theorem directory (hold : d.standing names ≠ .directory) {n : List String}
    (hn : d.standing n = .directory) : d'.standing n = .directory := by
  rw [h.other fun heq => hold (heq ▸ hn), hn]

theorem settle {q : Path} {n : List String} (hold : d.standing names ≠ .directory)
    (hq : d.settle q = .ok n) : d'.settle q = .ok n :=
  settle_mono h.here (fun _ => h.directory hold) hq

end Becomes

theorem becomes_put (hroot : d.standing [] = .directory) (hp : d.settle p = .ok names)
    (hold : d.standing names ≠ .directory) {e : Option Entry}
    (hleaf : ∀ below rest, e.bind (·.get? (below :: rest)) = none) :
    d.Becomes (d.put names e) names ((e.map Entry.standing).getD .nothing) := by
  obtain ⟨dir, name, rfl, hdir⟩ := exists_parent_of_settle hroot hp hold
  exact ⟨rfl, standing_put hdir hold hleaf⟩

/-! ## Reading -/

theorem read_eq_ok : d.read p = .ok content ↔
    ∃ names, d.settle p = .ok names ∧ d.standing names = .file content := by
  unfold read entry
  cases hp : d.settle p with
  | error e => simp [bind, Except.bind]
  | ok names =>
    simp only [bind, Except.bind, Except.ok.injEq, exists_eq_left']
    rw [standing]
    cases d.at? names with
    | none => simp
    | some e => cases e <;> simp [Entry.standing, pure, Except.pure]

/-- A file is read as before where its path leads to another name. -/
theorem Becomes.read_eq_ok {s : Standing} (h : d.Becomes d' names s)
    (hold : d.standing names ≠ .directory) (hroot : d.standing [] = .directory)
    (hp : (Path.resolve d.here p).parts ≠ names) (hread : d.read p = .ok content) :
    d'.read p = .ok content := by
  obtain ⟨n, hsettle, hfile⟩ := Disk.read_eq_ok.1 hread
  rw [← parts_of_settle hroot hsettle] at hp
  exact Disk.read_eq_ok.2 ⟨n, h.settle hold hsettle, (h.other hp).trans hfile⟩

theorem stat_of_settle (h : d.settle p = .ok names) : d.stat p = .ok (d.at? names) := by
  rw [stat, h]

theorem lookup?_eq_some {e : Entry} : d.lookup? p = some e ↔
    ∃ names, d.settle p = .ok names ∧ d.at? names = some e := by
  unfold lookup?
  cases d.settle p <;> simp [Except.toOption]

theorem isDirectory_iff : d.isDirectory p = true ↔
    ∃ names, d.settle p = .ok names ∧ d.standing names = .directory := by
  unfold isDirectory lookup?
  cases hp : d.settle p with
  | error e => simp [Except.toOption]
  | ok names =>
    simp only [Except.toOption, Option.bind_some, Except.ok.injEq, exists_eq_left']
    rw [standing]
    cases d.at? names with
    | none => simp
    | some e => cases e <;> simp [Entry.standing, Entry.isDirectory]

/-! ## Writing -/

theorem exists_write (hroot : d.standing [] = .directory) (hp : d.settle p = .ok names)
    (hold : d.standing names ≠ .directory) (content : Bytes) :
    ∃ d', d.write p content = .ok d' ∧ d.Becomes d' names (.file content) := by
  have hleaf : ∀ mode below rest,
      (some (Entry.file mode content)).bind (·.get? (below :: rest)) = none := fun _ _ _ => rfl
  unfold write
  simp only [hp, bind, Except.bind]
  cases hat : d.at? names with
  | none => exact ⟨_, rfl, becomes_put hroot hp hold (hleaf _)⟩
  | some e =>
    cases e with
    | file mode old => exact ⟨_, rfl, becomes_put hroot hp hold (hleaf _)⟩
    | directory mode entries => exact absurd (standing_eq_directory_iff.2 ⟨mode, entries, hat⟩) hold

theorem settle_of_write (h : d.write p content = .ok d') :
    ∃ names, d.settle p = .ok names ∧ d.standing names ≠ .directory := by
  unfold write at h
  cases hp : d.settle p with
  | error e => simp [hp, bind, Except.bind] at h
  | ok names =>
    refine ⟨names, rfl, fun hdir => ?_⟩
    obtain ⟨mode, entries, hat⟩ := standing_eq_directory_iff.1 hdir
    simp [hp, bind, Except.bind, hat] at h

theorem becomes_of_write (hroot : d.standing [] = .directory) (h : d.write p content = .ok d') :
    ∃ names, d.settle p = .ok names ∧ d.standing names ≠ .directory ∧
      d.Becomes d' names (.file content) := by
  obtain ⟨names, hp, hold⟩ := settle_of_write h
  obtain ⟨d'', hwrite, hbecomes⟩ := exists_write hroot hp hold content
  rw [h, Except.ok.injEq] at hwrite
  exact ⟨names, hp, hold, hwrite ▸ hbecomes⟩

theorem read_of_write (hroot : d.standing [] = .directory) (h : d.write p content = .ok d') :
    d'.read p = .ok content := by
  obtain ⟨names, hp, hold, hbecomes⟩ := becomes_of_write hroot h
  exact read_eq_ok.2 ⟨names, hbecomes.settle hold hp, hbecomes.self⟩

theorem at?_of_entry {e : Entry} (hp : d.settle p = .ok names) (h : d.entry p = .ok e) :
    d.at? names = some e := by
  obtain ⟨names', hp', hat⟩ := bind_eq_ok.1 h
  rw [hp, Except.ok.injEq] at hp'
  subst hp'
  split at hat
  · next e' hat' => rw [hat', Except.ok.inj hat]
  · cases hat

/-- Setting a mode leaves all that stands. -/
theorem standing_of_setMode {mode : Nat} (h : d.setMode p mode = .ok d') :
    d'.here = d.here ∧ ∀ n, d'.standing n = d.standing n := by
  obtain ⟨e, hentry, h⟩ := bind_eq_ok.1 h
  obtain ⟨names, hp, h⟩ := bind_eq_ok.1 h
  cases h
  have hat : d.at? names = some e := at?_of_entry hp hentry
  have hsame : ∀ n, ((d.put names (some (e.withMode mode))).at? n).map Entry.standing =
      (d.at? n).map Entry.standing := Entry.standing_get?_put_withMode hat mode
  exact ⟨rfl, fun n => by rw [standing, standing, hsame]⟩

theorem Becomes.setMode {s : Standing} {after : Disk} {mode : Nat} (h : d.Becomes d' names s)
    (hmode : d'.setMode p mode = .ok after) : d.Becomes after names s := by
  obtain ⟨hhere, hsame⟩ := standing_of_setMode hmode
  exact ⟨hhere.trans h.here, fun n => (hsame n).trans (h.standing n)⟩

theorem exists_entry (hp : d.settle p = .ok names) (hstanding : d.standing names ≠ .nothing) :
    ∃ e, d.entry p = .ok e := by
  cases hat : d.at? names with
  | none => exact absurd (standing_eq_nothing_iff.2 hat) hstanding
  | some e => exact ⟨e, by simp [entry, hp, hat, bind, Except.bind, pure, Except.pure]⟩

theorem exists_mode (hp : d.settle p = .ok names) (hstanding : d.standing names ≠ .nothing) :
    ∃ mode, d.mode p = .ok mode := by
  obtain ⟨e, hentry⟩ := exists_entry hp hstanding
  exact ⟨e.mode, by simp [mode, hentry, bind, Except.bind, pure, Except.pure]⟩

theorem exists_setMode (hp : d.settle p = .ok names) (hstanding : d.standing names ≠ .nothing)
    (mode : Nat) : ∃ d', d.setMode p mode = .ok d' := by
  obtain ⟨e, hentry⟩ := exists_entry hp hstanding
  exact ⟨d.put names (some (e.withMode mode)), by
    simp [setMode, hentry, hp, bind, Except.bind, pure, Except.pure]⟩

theorem exists_remove (hroot : d.standing [] = .directory) (hp : d.settle p = .ok names)
    (hfile : d.standing names = .file content) :
    ∃ d', d.remove p = .ok d' ∧ d.Becomes d' names .nothing := by
  obtain ⟨mode, hat⟩ := standing_eq_file_iff.1 hfile
  refine ⟨d.put names none, ?_,
    becomes_put hroot hp (ne_directory_of_file hfile) fun _ _ => rfl⟩
  simp [remove, hp, hat, bind, Except.bind, pure, Except.pure]

theorem becomes_of_remove (hroot : d.standing [] = .directory) (h : d.remove p = .ok d') :
    ∃ names, d.settle p = .ok names ∧ d.standing names ≠ .directory ∧
      d.Becomes d' names .nothing := by
  obtain ⟨names, hp, hremove⟩ := bind_eq_ok.1 h
  split at hremove
  · next mode content hat =>
    have hfile : d.standing names = .file content := standing_eq_file_iff.2 ⟨mode, hat⟩
    obtain ⟨d'', hremove', hbecomes⟩ := exists_remove hroot hp hfile
    rw [h, Except.ok.injEq] at hremove'
    exact ⟨names, hp, ne_directory_of_file hfile, hremove' ▸ hbecomes⟩
  · cases hremove
  · cases hremove

/-- A file that is moved leaves its old name empty. -/
theorem exists_rename (hroot : d.standing [] = .directory) {source target : Path}
    {old : List String} (hsource : d.settle source = .ok old)
    (hfile : d.standing old = .file content) (htarget : d.settle target = .ok names)
    (hnames : d.standing names ≠ .directory) :
    ∃ between d', d.rename source target = .ok d' ∧ d.Becomes between old .nothing ∧
      between.standing names ≠ .directory ∧ between.Becomes d' names (.file content) := by
  obtain ⟨mode, hat⟩ := standing_eq_file_iff.1 hfile
  have hold : d.standing old ≠ .directory := ne_directory_of_file hfile
  have hgone : d.Becomes (d.put old none) old .nothing :=
    becomes_put hroot hsource hold fun _ _ => rfl
  have hnames' : (d.put old none).standing names ≠ .directory := by
    rw [hgone.standing]
    split
    · exact Standing.nothing_ne_directory
    · exact hnames
  have hplaced := becomes_put (e := some (.file mode content)) (hgone.directory hold hroot)
    (hgone.settle hold htarget) hnames' fun _ _ => rfl
  refine ⟨_, _, ?_, hgone, hnames', hplaced⟩
  cases htop : d.at? names with
  | none => simp [rename, entry, hsource, hat, htarget, htop, bind, Except.bind, pure, Except.pure]
  | some e =>
    cases e with
    | file => simp [rename, entry, hsource, hat, htarget, htop, bind, Except.bind, pure, Except.pure]
    | directory m entries => exact absurd (standing_eq_directory_iff.2 ⟨m, entries, htop⟩) hnames

theorem settle_of_rename {source target : Path} (h : d.rename source target = .ok d') :
    ∃ old names, d.settle source = .ok old ∧ d.standing old ≠ .nothing ∧
      d.settle target = .ok names ∧ d.standing names ≠ .directory := by
  obtain ⟨e, hentry, h⟩ := bind_eq_ok.1 h
  obtain ⟨old, hsource, h⟩ := bind_eq_ok.1 h
  obtain ⟨names, htarget, h⟩ := bind_eq_ok.1 h
  refine ⟨old, names, hsource, fun hnothing => ?_, htarget, fun hdir => ?_⟩
  · rw [standing_eq_nothing_iff, at?_of_entry hsource hentry] at hnothing
    cases hnothing
  · obtain ⟨mode, entries, hat⟩ := standing_eq_directory_iff.1 hdir
    simp [hat] at h

theorem becomes_of_rename (hroot : d.standing [] = .directory) {source target : Path}
    {old : List String} (h : d.rename source target = .ok d') (hsource : d.settle source = .ok old)
    (hold : d.standing old ≠ .directory) :
    ∃ content names between, d.standing old = .file content ∧ d.settle target = .ok names ∧
      d.Becomes between old .nothing ∧ between.standing names ≠ .directory ∧
      between.Becomes d' names (.file content) := by
  obtain ⟨old', names, hsource', hstanding, htarget, hnames⟩ := settle_of_rename h
  rw [hsource, Except.ok.injEq] at hsource'
  subst hsource'
  cases hfile : d.standing old with
  | nothing => exact absurd hfile hstanding
  | directory => exact absurd hfile hold
  | file content =>
    obtain ⟨between, d'', hrename, hmoved⟩ := exists_rename hroot hsource hfile htarget hnames
    rw [h, Except.ok.injEq] at hrename
    subst hrename
    exact ⟨content, names, between, rfl, htarget, hmoved⟩

theorem read_of_rename (hroot : d.standing [] = .directory) {source target : Path}
    (h : d.rename source target = .ok d') (hread : d.read source = .ok content) :
    d'.read target = .ok content := by
  obtain ⟨old, hsource, hfile⟩ := read_eq_ok.1 hread
  have hold : d.standing old ≠ .directory := ne_directory_of_file hfile
  obtain ⟨content', names, between, hfile', htarget, hgone, hnames, hplaced⟩ :=
    becomes_of_rename hroot h hsource hold
  obtain rfl : content = content' := Standing.file.inj (hfile.symm.trans hfile')
  exact read_eq_ok.2 ⟨names, hplaced.settle hnames (hgone.settle hold htarget), hplaced.self⟩

/-! ## Copying -/

theorem copyTarget_of_not_directory {source target : Path} (hp : d.settle target = .ok names)
    (h : d.standing names ≠ .directory) : d.copyTarget source target = target := by
  have hno : ¬ d.isDirectory target = true := fun hdir => by
    obtain ⟨names', hp', hstanding⟩ := isDirectory_iff.1 hdir
    rw [hp, Except.ok.injEq] at hp'
    exact h (hp' ▸ hstanding)
  rw [copyTarget, if_neg hno]

theorem exists_copy (hroot : d.standing [] = .directory) {source target : Path}
    {old : List String} (hsource : d.settle source = .ok old)
    (hfile : d.standing old = .file content) (htarget : d.settle target = .ok names)
    (hnames : d.standing names ≠ .directory) (hne : old ≠ names) :
    ∃ d', d.copy source target = .ok d' ∧ d.Becomes d' names (.file content) := by
  obtain ⟨written, hwrite, hbecomes⟩ := exists_write hroot htarget hnames content
  obtain ⟨mode, hmode⟩ := exists_mode (hbecomes.settle hnames hsource)
    (ne_nothing_of_file ((hbecomes.other hne).trans hfile))
  obtain ⟨d', hset⟩ := exists_setMode (hbecomes.settle hnames htarget)
    (ne_nothing_of_file hbecomes.self) mode
  refine ⟨d', ?_, hbecomes.setMode hset⟩
  have hread : d.read source = .ok content := read_eq_ok.2 ⟨old, hsource, hfile⟩
  have hsame : d.isSame source target = false := by
    simp [isSame, hsource, htarget, Except.toOption, hne]
  rw [copy, copyTarget_of_not_directory htarget hnames, hsame]
  simp [hread, hwrite, hmode, hset, bind, Except.bind]

theorem becomes_of_copy (hroot : d.standing [] = .directory) {source target : Path}
    (h : d.copy source target = .ok d') :
    ∃ old content names, d.settle source = .ok old ∧ d.standing old = .file content ∧
      d.settle (d.copyTarget source target) = .ok names ∧ d.standing names ≠ .directory ∧
      d.Becomes d' names (.file content) := by
  unfold copy at h
  dsimp only at h
  split at h
  · cases h
  · obtain ⟨content, hread, h⟩ := bind_eq_ok.1 h
    obtain ⟨written, hwrite, h⟩ := bind_eq_ok.1 h
    obtain ⟨mode, -, hset⟩ := bind_eq_ok.1 h
    obtain ⟨old, hsource, hfile⟩ := read_eq_ok.1 hread
    obtain ⟨names, htarget, hnames, hbecomes⟩ := becomes_of_write hroot hwrite
    exact ⟨old, content, names, hsource, hfile, htarget, hnames, hbecomes.setMode hset⟩

/-- A copy that is read back under the name given for it was made there. -/
theorem becomes_of_copy_of_read (hroot : d.standing [] = .directory) {source target : Path}
    (h : d.copy source target = .ok d') (hread : d'.read target = .ok content) :
    ∃ names, d.read source = .ok content ∧ d.settle target = .ok names ∧
      d.standing names ≠ .directory ∧ d.Becomes d' names (.file content) := by
  obtain ⟨old, copied, names, hsource, hfile, htarget, hnames, hbecomes⟩ :=
    becomes_of_copy hroot h
  obtain ⟨names', htarget', hfile'⟩ := read_eq_ok.1 hread
  have hno : ¬ d.isDirectory target = true := fun hdirectory => by
    obtain ⟨n, hn, hstanding⟩ := isDirectory_iff.1 hdirectory
    have hsame := (hbecomes.settle hnames hn).symm.trans htarget'
    rw [Except.ok.injEq] at hsame
    rw [← hsame, hbecomes.directory hnames hstanding] at hfile'
    cases hfile'
  rw [copyTarget, if_neg hno] at htarget
  have hsame := (hbecomes.settle hnames htarget).symm.trans htarget'
  rw [Except.ok.injEq] at hsame
  rw [← hsame, hbecomes.self, Standing.file.injEq] at hfile'
  exact ⟨names, read_eq_ok.2 ⟨old, hsource, hfile' ▸ hfile⟩, htarget, hnames, hfile' ▸ hbecomes⟩

end Disk

end Deadwood
