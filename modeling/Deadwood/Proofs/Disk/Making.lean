import Deadwood.Proofs.Disk.Change

/-!
Making directories. Those that are missing are made on the way of a path, and nothing else changes
(`made_of_makeDirectories`); it works if the path goes down from a directory that is there and no
file stands on the way (`exists_makeDirectories`).
-/
namespace Deadwood.Disk

variable {d d' : Disk} {p : Path} {names : List String}

/-- The names that the beginnings of a path lead to. -/
def OnWay (d : Disk) (p : Path) (names : List String) : Prop :=
  ∃ init, init <+: (d.here.join p).parts ∧ names = init.foldl Path.climb []

/-- The same disk but for directories made where nothing stood. -/
structure Grows (d d' : Disk) (made : List String → Prop) : Prop where
  here : d'.here = d.here
  standing : ∀ n, d'.standing n = d.standing n ∨
    d.standing n = .nothing ∧ d'.standing n = .directory ∧ made n

namespace Grows

variable {made : List String → Prop}

theorem refl (d : Disk) (made : List String → Prop) : d.Grows d made := ⟨rfl, fun _ => .inl rfl⟩

theorem trans {d'' : Disk} (h : d.Grows d' made) (h' : d'.Grows d'' made) : d.Grows d'' made where
  here := h'.here.trans h.here
  standing n := by
    rcases h.standing n with hsame | ⟨hold, hnew, hmade⟩
    · rcases h'.standing n with hsame' | ⟨hold', hnew', hmade'⟩
      · exact .inl (hsame'.trans hsame)
      · exact .inr ⟨hsame ▸ hold', hnew', hmade'⟩
    · rcases h'.standing n with hsame' | ⟨hold', -, -⟩
      · exact .inr ⟨hold, hsame'.trans hnew, hmade⟩
      · rw [hnew] at hold'
        cases hold'

theorem mono {made' : List String → Prop} (h : d.Grows d' made) (hmade : ∀ n, made n → made' n) :
    d.Grows d' made' where
  here := h.here
  standing n := (h.standing n).imp_right fun ⟨hold, hnew, hn⟩ => ⟨hold, hnew, hmade n hn⟩

/-- What stood somewhere still does. -/
theorem of_ne_nothing (h : d.Grows d' made) (hn : d.standing names ≠ .nothing) :
    d'.standing names = d.standing names :=
  (h.standing names).resolve_right fun hmade => hn hmade.1

theorem directory (h : d.Grows d' made) (hn : d.standing names = .directory) :
    d'.standing names = .directory := by
  rw [h.of_ne_nothing (hn ▸ Standing.directory_ne_nothing), hn]

theorem file_iff {content : Bytes} (h : d.Grows d' made) :
    d'.standing names = .file content ↔ d.standing names = .file content := by
  rcases h.standing names with hsame | ⟨hold, hnew, -⟩
  · rw [hsame]
  · simp [hold, hnew]

theorem nothing (h : d.Grows d' made) (hn : d'.standing names = .nothing) :
    d.standing names = .nothing := by
  rcases h.standing names with hsame | ⟨hold, -, -⟩
  · rw [← hsame, hn]
  · exact hold

theorem settle (h : d.Grows d' made) (hp : d.settle p = .ok names) : d'.settle p = .ok names :=
  settle_mono h.here (fun _ => h.directory) hp

end Grows

theorem onWay_of_settle (hroot : d.standing [] = .directory) (h : d.settle p = .ok names) :
    d.OnWay p names :=
  ⟨_, List.prefix_refl _, (settleFrom_eq_ok hroot (settle_eq_ok_iff.1 h).2.2).1⟩

theorem onWay_parent (h : d.OnWay p.parent names) : d.OnWay p names := by
  obtain ⟨init, hinit, hnames⟩ := h
  refine ⟨init, hinit.trans ?_, hnames⟩
  unfold Path.join Path.isAbsolute Path.parent
  split
  · exact List.dropLast_prefix p.parts
  · exact (List.prefix_append_right_inj d.here.parts).2 (List.dropLast_prefix p.parts)

theorem grows_of_becomes {made : List String → Prop} (h : d.Becomes d' names .directory)
    (hnames : d.standing names = .nothing) (hmade : made names) : d.Grows d' made where
  here := h.here
  standing n := by
    by_cases hn : n = names
    · exact .inr ⟨hn ▸ hnames, hn ▸ h.self, hn ▸ hmade⟩
    · exact .inl (h.other hn)

theorem becomes_of_makeDirectory (hroot : d.standing [] = .directory)
    (h : d.makeDirectory p = .ok d') :
    ∃ names, d.settle p = .ok names ∧ d.standing names = .nothing ∧
      d.Becomes d' names .directory := by
  obtain ⟨names, hp, h⟩ := bind_eq_ok.1 h
  cases hat : d.at? names with
  | some e => simp [hat] at h
  | none =>
    have hnothing : d.standing names = .nothing := standing_eq_nothing_iff.2 hat
    simp only [hat, pure, Except.pure, Except.ok.injEq] at h
    refine ⟨names, hp, hnothing, h ▸ becomes_put hroot hp ?_ fun _ _ => rfl⟩
    rw [hnothing]
    exact Standing.nothing_ne_directory

theorem makeDirectory_of_settle (h : d.settle p = .ok names) :
    d.standing names = .nothing ∧ (∃ d', d.makeDirectory p = .ok d') ∨
      d.standing names ≠ .nothing ∧ d.makeDirectory p = .error (.system .fileExists p) := by
  rw [Ne, standing_eq_nothing_iff]
  cases hat : d.at? names <;>
    simp [makeDirectory, h, hat, bind, Except.bind, pure, Except.pure]

theorem settledFor_eq_ok {existing : Bool} {e : FileError} :
    d.settledFor p existing e = .ok d' ↔ existing = true ∧ d.isDirectory p = true ∧ d = d' := by
  unfold settledFor
  split
  · next h => simp [h]
  · next h => grind

/-- What is left after a directory was made or found. -/
def Made (d : Disk) (p : Path) (existing : Bool) (d' : Disk) : Prop :=
  d.Grows d' (d.OnWay p) ∧ d'.isDirectory p = true ∧
    (existing = false → ∃ between, d.Grows between (d.OnWay p) ∧ between.makeDirectory p = .ok d')

theorem made_of_makeDirectory (hroot : d.standing [] = .directory) {existing : Bool}
    (h : d.makeDirectory p = .ok d') : d.Made p existing d' := by
  obtain ⟨names, hp, hnothing, hbecomes⟩ := becomes_of_makeDirectory hroot h
  have hgrows : d.Grows d' (d.OnWay p) :=
    grows_of_becomes hbecomes hnothing (onWay_of_settle hroot hp)
  exact ⟨hgrows, isDirectory_iff.2 ⟨names, hgrows.settle hp, hbecomes.self⟩,
    fun _ => ⟨d, .refl .., h⟩⟩

theorem made_of_settledFor {existing : Bool} {e : FileError}
    (h : d.settledFor p existing e = .ok d') : d.Made p existing d' := by
  obtain ⟨rfl, hdir, rfl⟩ := settledFor_eq_ok.1 h
  exact ⟨.refl .., hdir, nofun⟩

theorem made_of_makeDirectoriesUpTo (hroot : d.standing [] = .directory) {n : Nat}
    {existing : Bool} (h : makeDirectoriesUpTo n d p existing = .ok d') : d.Made p existing d' := by
  induction n generalizing d p existing d' with
  | zero =>
    rw [makeDirectoriesUpTo] at h
    split at h
    · next made hmake =>
      cases h
      exact made_of_makeDirectory hroot hmake
    · exact made_of_settledFor h
  | succ n ih =>
    rw [makeDirectoriesUpTo] at h
    split at h
    · next made hmake =>
      cases h
      exact made_of_makeDirectory hroot hmake
    · split at h
      · cases h
      · obtain ⟨above, habove, h⟩ := bind_eq_ok.1 h
        obtain ⟨hgrows, -, -⟩ := ih hroot habove
        have hgrows : d.Grows above (d.OnWay p) := hgrows.mono fun _ => onWay_parent
        have hmade : above.Made p existing d' := by
          split at h
          · next made hmake =>
            cases h
            exact made_of_makeDirectory (hgrows.directory hroot) hmake
          · exact made_of_settledFor h
        obtain ⟨hlast, hdir, hnew⟩ := hmade
        have hway : above.OnWay p = d.OnWay p := by
          unfold OnWay
          rw [hgrows.here]
        rw [hway] at hlast hnew
        refine ⟨hgrows.trans hlast, hdir, fun hexisting => ?_⟩
        obtain ⟨between, hbetween, hmake⟩ := hnew hexisting
        exact ⟨between, hgrows.trans hbetween, hmake⟩
    · exact made_of_settledFor h

theorem made_of_makeDirectories (hroot : d.standing [] = .directory) {existing : Bool}
    (h : d.makeDirectories p existing = .ok d') : d.Made p existing d' :=
  made_of_makeDirectoriesUpTo hroot h

/-! ## Paths that go down -/

/-- A path that goes through a directory that is there, and from there down by names. No disk
refuses it for its characters or its length. -/
structure Leads (d : Disk) (p : Path) (dir rel : List String) : Prop where
  hasNull : p.hasNull = false
  size_le : p.toString.utf8ByteSize ≤ maxPathSize
  part : ∀ part ∈ rel, part ≠ ".." ∧ part.utf8ByteSize ≤ maxNameSize
  directory : d.standing dir = .directory
  way : ∃ init, p.parts = init ++ rel ∧
    d.settleFrom [] (d.here.join ⟨p.slashes, init⟩).parts = .ok dir

theorem parts_join_append (here : Path) {p : Path} {init rel : List String}
    (h : p.parts = init ++ rel) :
    (here.join p).parts = (here.join ⟨p.slashes, init⟩).parts ++ rel := by
  unfold Path.join Path.isAbsolute
  dsimp only
  split
  · exact h
  · rw [h, List.append_assoc]

theorem size_parent_le (p : Path) :
    p.parent.toString.utf8ByteSize ≤ max 1 p.toString.utf8ByteSize := by
  by_cases hempty : p.parent.slashes = 0 ∧ p.parent.parts = []
  · rw [Path.toString, if_pos hempty]
    exact Nat.le_max_left _ _
  · refine Nat.le_trans ?_ (Nat.le_max_right _ _)
    rcases List.eq_nil_or_concat' p.parts with hnil | ⟨init, last, hparts⟩
    · have hsame : p.parent = p := by
        rw [Path.parent, hnil]
        exact congrArg (Path.mk p.slashes) hnil.symm
      exact Nat.le_of_eq (by rw [hsame])
    · have htext : p.relativeText = "/".intercalate init ++
          (if init = [] then last else "/" ++ last) := by
        rw [Path.relativeText, hparts]
        split
        · next hinit => simp [hinit]
        · next hinit => simp [String.intercalate_append_of_ne_nil hinit, String.append_assoc]
      have hparent : p.parent.relativeText = "/".intercalate init := by
        rw [Path.parent, Path.relativeText, hparts, List.dropLast_concat]
      have hroot : p.parent.root = p.root := rfl
      rw [Path.toString, Path.toString, if_neg hempty, if_neg (by simp [hparts]), hparent, htext,
        hroot]
      simp only [String.utf8ByteSize_append]
      omega

/-- Parts below each other are followed as far as directories stand there. -/
theorem settleFrom_plain {done parts : List String}
    (hparts : ∀ part ∈ parts, part ≠ ".." ∧ part.utf8ByteSize ≤ maxNameSize)
    (hdirs : ∀ init, init <+: parts → init ≠ parts → d.standing (done ++ init) = .directory) :
    d.settleFrom done parts = .ok (done ++ parts) := by
  induction parts generalizing done with
  | nil => simp [settleFrom]
  | cons part rest ih =>
    rw [List.forall_mem_cons] at hparts
    refine settleFrom_cons_eq_ok.2 (.inr ⟨hparts.1.1, hparts.1.2, ?_⟩)
    by_cases hrest : rest = []
    · exact .inl ⟨hrest, by rw [hrest]⟩
    · have hdown : d.standing (done ++ [part]) = .directory :=
        hdirs [part] ⟨rest, rfl⟩ (by simpa using Ne.symm hrest)
      have hrest : d.settleFrom (done ++ [part]) rest = .ok (done ++ [part] ++ rest) :=
        ih hparts.2 fun init hinit hne => by
          rw [List.append_assoc, List.singleton_append]
          exact hdirs _ (List.cons_prefix_cons.2 ⟨rfl, hinit⟩) (by simpa using hne)
      refine .inr ⟨hdown, ?_⟩
      rw [hrest, List.append_assoc, List.singleton_append]

/-- Going down, all that can be wrong is that a directory is missing or that a file stands in the
place of one. -/
theorem settleFrom_plain_cases {done parts : List String}
    (hparts : ∀ part ∈ parts, part ≠ ".." ∧ part.utf8ByteSize ≤ maxNameSize) :
    d.settleFrom done parts = .ok (done ++ parts) ∨
      d.settleFrom done parts = .error .noEntry ∨
      d.settleFrom done parts = .error .notDirectory ∧
        ∃ init content, init <+: parts ∧ d.standing (done ++ init) = .file content := by
  induction parts generalizing done with
  | nil => simp [settleFrom]
  | cons part rest ih =>
    rw [List.forall_mem_cons] at hparts
    have hassoc : ∀ init, done ++ [part] ++ init = done ++ part :: init := by simp
    rw [settleFrom, if_neg hparts.1.1, if_neg (Nat.not_lt.2 hparts.1.2)]
    cases hat : d.at? (done ++ [part]) with
    | none => cases rest <;> simp
    | some e =>
      cases e with
      | file mode content =>
        have hfile : d.standing (done ++ [part]) = .file content :=
          standing_eq_file_iff.2 ⟨mode, hat⟩
        cases rest with
        | nil => exact .inl rfl
        | cons => exact .inr (.inr ⟨rfl, [part], content, ⟨_, rfl⟩, hfile⟩)
      | directory mode entries =>
        have hrest : d.settleFrom (done ++ [part]) rest = .ok (done ++ [part] ++ rest) ∨
            d.settleFrom (done ++ [part]) rest = .error .noEntry ∨
            d.settleFrom (done ++ [part]) rest = .error .notDirectory ∧
              ∃ init content, init <+: rest ∧
                d.standing (done ++ [part] ++ init) = .file content := ih hparts.2
        rw [hassoc] at hrest
        refine hrest.imp_right (Or.imp_right (And.imp_right ?_))
        rintro ⟨init, content, hinit, hfile⟩
        rw [hassoc] at hfile
        exact ⟨part :: init, content, List.cons_prefix_cons.2 ⟨rfl, hinit⟩, hfile⟩

namespace Leads

variable {dir rel : List String} (h : d.Leads p dir rel)

include h

theorem root_directory : d.standing [] = .directory :=
  directory_of_isPrefix h.directory List.nil_prefix

theorem settle_eq : d.settle p = (d.settleFrom dir rel).mapError (.system · p) := by
  obtain ⟨init, hparts, hway⟩ := h.way
  rw [Disk.settle, if_neg (by simp [h.hasNull]), if_neg (Nat.not_lt.2 h.size_le),
    parts_join_append _ hparts, settleFrom_append hway h.directory]

theorem climb : rel.foldl Path.climb dir = dir ++ rel :=
  Path.foldl_climb_eq (fun part hpart => (h.part part hpart).1) dir

theorem parts_resolve : (Path.resolve d.here p).parts = dir ++ rel := by
  obtain ⟨init, hparts, hway⟩ := h.way
  rw [Path.resolve, parts_join_append _ hparts]
  dsimp only
  rw [List.foldl_append, ← (settleFrom_eq_ok h.root_directory hway).1, h.climb]

theorem settle
    (habove : ∀ init, init <+: rel → init ≠ rel → d.standing (dir ++ init) = .directory) :
    d.settle p = .ok (dir ++ rel) := by
  rw [h.settle_eq, settleFrom_plain h.part habove]
  rfl

theorem settle_of_ne_nothing (hstanding : d.standing (dir ++ rel) ≠ .nothing) :
    d.settle p = .ok (dir ++ rel) := by
  refine h.settle fun init hinit hne => ?_
  obtain ⟨rest, rfl⟩ := hinit
  rw [← List.append_assoc] at hstanding
  exact directory_above hstanding fun hnil => hne (by rw [hnil, List.append_nil])

theorem read {content : Bytes} (hfile : d.standing (dir ++ rel) = .file content) :
    d.read p = .ok content :=
  read_eq_ok.2 ⟨_, h.settle_of_ne_nothing (ne_nothing_of_file hfile), hfile⟩

theorem read_iff {content : Bytes} :
    d.read p = .ok content ↔ d.standing (dir ++ rel) = .file content := by
  refine ⟨fun hread => ?_, h.read⟩
  obtain ⟨names, hsettle, hfile⟩ := read_eq_ok.1 hread
  rwa [parts_of_settle h.root_directory hsettle, h.parts_resolve] at hfile

/-- Where nothing stands at the end of the path, whatever is missing is no error. -/
theorem stat_eq_none (hnothing : d.standing (dir ++ rel) = .nothing) : d.stat p = .ok none := by
  rw [stat, h.settle_eq]
  rcases settleFrom_plain_cases h.part with hok | herror | ⟨herror, -⟩
  · rw [hok]
    exact congrArg _ (standing_eq_nothing_iff.1 hnothing)
  · rw [herror]
    rfl
  · rw [herror]
    rfl

/-- The same way on a disk that has kept its directories. -/
theorem mono (hhere : d'.here = d.here)
    (hdirs : ∀ n, d.standing n = .directory → d'.standing n = .directory) : d'.Leads p dir rel where
  hasNull := h.hasNull
  size_le := h.size_le
  part := h.part
  directory := hdirs _ h.directory
  way := by
    obtain ⟨init, hparts, hway⟩ := h.way
    exact ⟨init, hparts, hhere ▸ settleFrom_mono hdirs hway⟩

/-- Only from the directory on can something on the way be missing. -/
theorem onWay_cases (hn : d.OnWay p names) : d.standing names = .directory ∨
    ∃ init, init <+: rel ∧ names = dir ++ init := by
  obtain ⟨init, hparts, hway⟩ := h.way
  obtain ⟨before, hbefore, rfl⟩ := hn
  rw [parts_join_append _ hparts] at hbefore
  rcases List.prefix_or_prefix_of_prefix hbefore (List.prefix_append _ rel) with
    habove | ⟨below, rfl⟩
  · exact .inl (directory_of_settleFrom h.root_directory hway h.directory habove)
  · have hbelow : below <+: rel := (List.prefix_append_right_inj _).1 hbefore
    refine .inr ⟨below, hbelow, ?_⟩
    rw [List.foldl_append, ← (settleFrom_eq_ok h.root_directory hway).1]
    exact Path.foldl_climb_eq (fun part hpart => (h.part part (hbelow.subset hpart)).1) dir

end Leads

theorem Leads.parent {dir rel : List String} {last : String} (h : d.Leads p dir (rel ++ [last])) :
    d.Leads p.parent dir rel where
  hasNull := by
    rw [Path.hasNull, List.any_eq_false]
    exact fun part hpart => List.any_eq_false.1 h.hasNull part (List.dropLast_subset _ hpart)
  size_le := Nat.le_trans (size_parent_le p) (Nat.max_le.2 ⟨by decide, h.size_le⟩)
  part part hpart := h.part part (List.mem_append_left _ hpart)
  directory := h.directory
  way := by
    obtain ⟨init, hparts, hway⟩ := h.way
    refine ⟨init, ?_, hway⟩
    rw [Path.parent, hparts, ← List.append_assoc, List.dropLast_concat]

/-- A directory is made, unless it is there, where no file stands at its name. -/
theorem exists_made_at (hp : d.settle p = .ok names)
    (hfree : ∀ content, d.standing names ≠ .file content) :
    (∃ d', d.makeDirectory p = .ok d') ∨
      d.makeDirectory p = .error (.system .fileExists p) ∧
        ∀ e, d.settledFor p true e = .ok d := by
  rcases makeDirectory_of_settle hp with ⟨-, hmade⟩ | ⟨hstanding, herror⟩
  · exact .inl hmade
  · refine .inr ⟨herror, fun e => settledFor_eq_ok.2 ⟨rfl, isDirectory_iff.2 ⟨names, hp, ?_⟩, rfl⟩⟩
    cases h : d.standing names with
    | nothing => exact absurd h hstanding
    | directory => rfl
    | file content => exact absurd h (hfree content)

theorem exists_makeDirectories {dir rel : List String} (h : d.Leads p dir rel)
    (hfree : ∀ init, init <+: rel → ∀ content, d.standing (dir ++ init) ≠ .file content) :
    ∃ d', d.makeDirectories p true = .ok d' := by
  suffices hupTo : ∀ n, p.parts.length = n → ∃ d', makeDirectoriesUpTo n d p true = .ok d' from
    hupTo _ rfl
  intro n hn
  induction n generalizing p rel with
  | zero =>
    obtain ⟨init, hparts, -⟩ := h.way
    have hnil : rel = [] := by
      rw [List.eq_nil_of_length_eq_zero hn] at hparts
      exact (List.append_eq_nil_iff.1 hparts.symm).2
    have hp : d.settle p = .ok (dir ++ rel) := h.settle_of_ne_nothing (by
      rw [hnil, List.append_nil, h.directory]
      exact Standing.directory_ne_nothing)
    rw [makeDirectoriesUpTo]
    rcases exists_made_at hp (hfree _ (List.prefix_refl _)) with ⟨d', hmade⟩ | ⟨herror, hsettled⟩
    · exact ⟨d', by rw [hmade]⟩
    · exact ⟨d, by rw [herror]; exact hsettled _⟩
  | succ n ih =>
    rw [makeDirectoriesUpTo]
    rcases settleFrom_plain_cases h.part with hp | hp | ⟨-, init, content, hinit, hfile⟩
    · have hp : d.settle p = .ok (dir ++ rel) := by
        rw [h.settle_eq, hp]
        rfl
      rcases exists_made_at hp (hfree _ (List.prefix_refl _)) with ⟨d', hmade⟩ | ⟨herror, hsettled⟩
      · exact ⟨d', by rw [hmade]⟩
      · exact ⟨d, by rw [herror]; exact hsettled _⟩
    · have herror : d.makeDirectory p = .error (.system .noEntry p) := by
        rw [makeDirectory, h.settle_eq, hp]
        rfl
      have hne : p.parts ≠ [] := fun hnil => by simp [hnil] at hn
      -- What is missing is below the directory, so the path has a name to go back from.
      rcases List.eq_nil_or_concat' rel with rfl | ⟨above, last, rfl⟩
      · cases hp
      obtain ⟨d₁, habove⟩ := ih h.parent
        (fun init hinit => hfree init (hinit.trans (List.prefix_append _ _)))
        (by simp [Path.parent, hn])
      obtain ⟨hgrows, hdir, -⟩ := made_of_makeDirectoriesUpTo h.root_directory habove
      have h₁ := h.mono hgrows.here fun _ => hgrows.directory
      obtain ⟨names, hnames, hstanding⟩ := isDirectory_iff.1 hdir
      rw [parts_of_settle h₁.root_directory hnames, h₁.parent.parts_resolve] at hstanding
      have hp' : d₁.settle p = .ok (dir ++ (above ++ [last])) := h₁.settle fun init hinit hne =>
        directory_of_isPrefix hstanding ((List.prefix_append_right_inj dir).2
          ((List.prefix_concat_iff.1 hinit).resolve_left hne))
      have hfree' : ∀ content, d₁.standing (dir ++ (above ++ [last])) ≠ .file content :=
        fun content hfile => hfree _ (List.prefix_refl _) content (hgrows.file_iff.1 hfile)
      -- With the directory above there, only this one can be missing.
      rw [herror]
      simp only [if_neg hne, habove, bind, Except.bind]
      rcases exists_made_at hp' hfree' with ⟨d', hmade⟩ | ⟨herror, hsettled⟩
      · exact ⟨d', by rw [hmade]⟩
      · exact ⟨d₁, by rw [herror]; exact hsettled _⟩
    · exact absurd hfile (hfree init hinit content)

/-! ## Paths without `..` -/

/-- An absolute path without `..` that no disk refuses for its characters or its length. -/
structure Plain (p : Path) : Prop where
  isAbsolute : p.isAbsolute = true
  hasNull : p.hasNull = false
  size_le : p.toString.utf8ByteSize ≤ maxPathSize
  part : ∀ part ∈ p.parts, part ≠ ".." ∧ part.utf8ByteSize ≤ maxNameSize

theorem size_le_of_settleFrom {done parts : List String} (h : d.settleFrom done parts = .ok names) :
    ∀ part ∈ parts, part ≠ ".." → part.utf8ByteSize ≤ maxNameSize := by
  induction parts generalizing done with
  | nil => simp
  | cons part rest ih =>
    rw [List.forall_mem_cons]
    rcases settleFrom_cons_eq_ok.1 h with ⟨hup, h⟩ | ⟨-, hsize, ⟨rfl, -⟩ | ⟨-, h⟩⟩
    · exact ⟨fun hne => absurd hup hne, ih h⟩
    · exact ⟨fun _ => hsize, by simp⟩
    · exact ⟨fun _ => hsize, ih h⟩

theorem plain_of_settle (h : d.settle p = .ok names) (habsolute : p.isAbsolute = true)
    (hparts : ∀ part ∈ p.parts, part ≠ "..") : Plain p := by
  obtain ⟨hnull, hsize, h⟩ := settle_eq_ok_iff.1 h
  rw [Path.join, if_pos habsolute] at h
  exact ⟨habsolute, hnull, hsize, fun part hpart =>
    ⟨hparts part hpart, size_le_of_settleFrom h part hpart (hparts part hpart)⟩⟩

theorem settleFrom_concat {done parts : List String} {last : String} (hlast : last ≠ "..")
    (h : d.settleFrom done (parts ++ [last]) = .ok names) :
    ∃ dir, d.settleFrom done parts = .ok dir ∧ names = dir ++ [last] := by
  induction parts generalizing done with
  | nil =>
    rcases settleFrom_cons_eq_ok.1 h with ⟨hup, -⟩ | ⟨-, -, ⟨-, rfl⟩ | ⟨-, h⟩⟩
    · exact absurd hup hlast
    · exact ⟨done, rfl, rfl⟩
    · cases h
      exact ⟨done, rfl, rfl⟩
  | cons part parts ih =>
    rcases settleFrom_cons_eq_ok.1 h with ⟨hup, h⟩ | ⟨hup, hsize, ⟨hnil, -⟩ | ⟨hdown, h⟩⟩
    · obtain ⟨dir, hdir, hnames⟩ := ih h
      exact ⟨dir, settleFrom_cons_eq_ok.2 (.inl ⟨hup, hdir⟩), hnames⟩
    · simp at hnil
    · obtain ⟨dir, hdir, hnames⟩ := ih h
      exact ⟨dir, settleFrom_cons_eq_ok.2 (.inr ⟨hup, hsize, .inr ⟨hdown, hdir⟩⟩), hnames⟩

/-- A path leads somewhere if one of its children does. -/
theorem settle_of_child {name : String} (hname : name ≠ "..")
    (h : d.settle (p.child name) = .ok names) :
    ∃ dir, d.settle p = .ok dir ∧ names = dir ++ [name] := by
  obtain ⟨hnull, hsize, h⟩ := settle_eq_ok_iff.1 h
  have hparts : (p.child name).parts = p.parts ++ [name] := rfl
  rw [parts_join_append _ hparts] at h
  obtain ⟨dir, hdir, hnames⟩ := settleFrom_concat hname h
  refine ⟨dir, settle_eq_ok_iff.2 ⟨?_, ?_, hdir⟩, hnames⟩
  · rw [Path.hasNull, List.any_eq_false] at hnull ⊢
    exact fun part hpart => hnull part (List.mem_append_left _ hpart)
  · have hparent := size_parent_le (p.child name)
    rw [Path.parent_child] at hparent
    exact Nat.le_trans hparent (Nat.max_le.2 ⟨by decide, hsize⟩)

/-- Below a place that leads to a directory, a path that some disk does not refuse goes down. -/
theorem leads_join {place : Path} {dir rel : List String} (hplace : d'.settle place = .ok dir)
    (hdir : d'.standing dir = .directory) (hsettle : d.settle (place.join ⟨0, rel⟩) = .ok names)
    (hup : ∀ part ∈ rel, part ≠ "..") : d'.Leads (place.join ⟨0, rel⟩) dir rel where
  hasNull := (settle_eq_ok_iff.1 hsettle).1
  size_le := (settle_eq_ok_iff.1 hsettle).2.1
  part part hpart := by
    refine ⟨hup part hpart, size_le_of_settleFrom (settle_eq_ok_iff.1 hsettle).2.2 part ?_
      (hup part hpart)⟩
    have hparts : (place.join ⟨0, rel⟩).parts = place.parts ++ rel := rfl
    rw [parts_join_append _ hparts]
    exact List.mem_append_right _ hpart
  directory := hdir
  way := ⟨place.parts, rfl, (settle_eq_ok_iff.1 hplace).2.2⟩

/-- A path without `..` goes down from the root. -/
theorem Plain.leads (h : Plain p) (hroot : d.standing [] = .directory) :
    d.Leads p [] p.parts where
  hasNull := h.hasNull
  size_le := h.size_le
  part := h.part
  directory := hroot
  way := by
    have habsolute : (⟨p.slashes, []⟩ : Path).isAbsolute = true := h.isAbsolute
    refine ⟨[], rfl, ?_⟩
    rw [Path.join, if_pos habsolute]
    rfl

theorem read_plain (h : Plain p) (hroot : d.standing [] = .directory) {content : Bytes}
    (hfile : d.standing p.parts = .file content) : d.read p = .ok content :=
  (h.leads hroot).read hfile

end Deadwood.Disk
