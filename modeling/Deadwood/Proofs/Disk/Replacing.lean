import Deadwood.Proofs.Disk.Footprint

/-!
Replacing a file while any step of it can fail. All steps but the last one change nothing but the
file beside the target (`keeps_performAll`), and when they are done it holds all of the new content
(`standing_of_preparation`); the last step changes both names at once. So the target has its old
content or the new one at every moment, whatever fails (`replaceInterrupted_atomic`). Where nothing
fails and both names can take a file, it is replaced (`exists_replaced`).
-/
namespace Deadwood.Disk

variable {c : Course} {d d' : Disk} {p : Path} {content : Bytes}

/-! ## The names -/

theorem temporary_eq (p : Path) : ∃ beside, temporary p = p.parent.child beside ∧
    beside.toList.head? = some '.' ∧ beside ≠ ".." ∧ beside ≠ p.name := by
  have hlonger : ∀ name : String, name.toList.length ≤ 2 + p.name.toList.length →
      s!".{p.name}.script-doctor.tmp" ≠ name := by
    rintro name hname rfl
    simp [toString_text] at hname
    omega
  exact ⟨s!".{p.name}.script-doctor.tmp", rfl, by simp [toString_text], hlonger _ (by simp),
    hlonger _ (by omega)⟩

/-- A path and the file beside it never lead to one name, whatever the path ends in. -/
theorem resolve_temporary_ne (here p : Path) :
    (Path.resolve here (temporary p)).parts ≠ (Path.resolve here p).parts := by
  obtain ⟨beside, htemporary, -, hup, hname⟩ := temporary_eq p
  rw [htemporary, Path.parts_resolve_child _ _ hup]
  by_cases hparts : p.parts = []
  · rw [Path.parent_of_parts_eq_nil hparts]
    simp
  · rw [Path.parts_resolve_eq_climb here hparts, Path.climb]
    split
    · intro h
      have hlength := congrArg List.length h
      simp at hlength
      omega
    · intro h
      exact hname (List.head_eq_of_cons_eq (List.append_inj' h rfl).2)

/-- The names that a path and the file beside it lead to. -/
def Beside (here p : Path) (names : List String) : Prop :=
  names = (Path.resolve here p).parts ∨ names = (Path.resolve here (temporary p)).parts

theorem exists?_eq_false (hroot : d.standing [] = .directory)
    (h : d.standing (Path.resolve d.here p).parts = .nothing) : d.exists? p = false := by
  cases hlookup : d.lookup? p with
  | none => simp [exists?, hlookup]
  | some e =>
    obtain ⟨names, hp, hat⟩ := lookup?_eq_some.1 hlookup
    rw [← parts_of_settle hroot hp, standing_eq_nothing_iff, hat] at h
    cases h

/-! ## Runs of steps -/

section Runs

variable {s : ReplaceStep} {steps rest : List ReplaceStep} {e : FileError}

theorem attempt_eq_ok (h : attempt c p content d s = .ok d') : perform p content d s = .ok d' := by
  unfold attempt at h
  split at h
  · cases h
  · exact h

theorem performAll_cons_eq_ok : performAll c p content d (s :: rest) = (.ok (), d') ↔
    ∃ between, attempt c p content d s = .ok between ∧
      performAll c p content between rest = (.ok (), d') := by
  rw [performAll]
  cases attempt c p content d s <;> simp

theorem performAll_append (steps rest : List ReplaceStep) :
    performAll c p content d (steps ++ rest) =
      match performAll c p content d steps with
      | (.ok (), between) => performAll c p content between rest
      | (.error e, left) => (.error e, left) := by
  induction steps generalizing d with
  | nil => rfl
  | cons s steps ih =>
    rw [List.cons_append, performAll, performAll]
    cases attempt c p content d s with
    | error e => rfl
    | ok between => exact ih

theorem performAll_append_of_ok (h : performAll c p content d steps = (.ok (), d')) :
    performAll c p content d (steps ++ rest) = performAll c p content d' rest := by
  rw [performAll_append, h]

theorem performAll_append_eq_ok : performAll c p content d (steps ++ rest) = (.ok (), d') ↔
    ∃ between, performAll c p content d steps = (.ok (), between) ∧
      performAll c p content between rest = (.ok (), d') := by
  rw [performAll_append]
  obtain ⟨result, between⟩ := performAll c p content d steps
  cases result <;> simp

/-- A run fails in one of its steps, after those before it. -/
theorem exists_of_performAll_eq_error (h : performAll c p content d steps = (.error e, d')) :
    ∃ before s rest, steps = before ++ s :: rest ∧
      performAll c p content d before = (.ok (), d') ∧ attempt c p content d' s = .error e := by
  induction steps generalizing d with
  | nil => cases h
  | cons s steps ih =>
    rw [performAll] at h
    split at h
    · next hstep =>
      cases h
      exact ⟨[], s, steps, rfl, rfl, hstep⟩
    · next between hstep =>
      obtain ⟨before, s', rest, rfl, hbefore, hfails⟩ := ih h
      exact ⟨s :: before, s', rest, rfl, performAll_cons_eq_ok.2 ⟨between, hstep, hbefore⟩, hfails⟩

theorem performAll_eq_error (hbefore : performAll c p content d steps = (.ok (), d'))
    (hfails : attempt c p content d' s = .error e) :
    performAll c p content d (steps ++ s :: rest) = (.error e, d') := by
  rw [performAll_append_of_ok hbefore, performAll, hfails]

end Runs

/-! ## Before the target changes -/

section Preparation

variable {s : ReplaceStep} {steps : List ReplaceStep}

theorem keeps_perform (hroot : d.standing [] = .directory) (hs : s ≠ .rename)
    (h : perform p content d s = .ok d') :
    d.Keeps d' (· = (Path.resolve d.here (temporary p)).parts) := by
  cases s with
  | create => exact keeps_write hroot h
  | write size => exact keeps_write hroot h
  | sync =>
    cases h
    exact .refl ..
  | copyMode =>
    rw [perform, copyMode] at h
    split at h
    · obtain ⟨mode, -, h⟩ := bind_eq_ok.1 h
      exact keeps_setMode hroot h
    · cases h
      exact .refl ..
  | rename => exact absurd rfl hs

theorem keeps_performAll (hroot : d.standing [] = .directory) (hsteps : .rename ∉ steps)
    {result : Except FileError Unit} (h : performAll c p content d steps = (result, d')) :
    d.Keeps d' (· = (Path.resolve d.here (temporary p)).parts) := by
  induction steps generalizing d with
  | nil =>
    cases h
    exact .refl ..
  | cons s rest ih =>
    rw [List.mem_cons, not_or] at hsteps
    rw [performAll] at h
    split at h
    · cases h
      exact .refl ..
    · next between hstep =>
      have hfirst := keeps_perform hroot (Ne.symm hsteps.1) (attempt_eq_ok hstep)
      have hrest := ih (hfirst.root hroot) hsteps.2 h
      rw [hfirst.here] at hrest
      exact hfirst.trans hrest

theorem rename_not_mem_preparation (c : Course) (content : Bytes) :
    .rename ∉ preparation c content := by
  simp [preparation]

theorem standing_of_copyMode {source target : Path} (h : d.copyMode source target = .ok d')
    (n : List String) : d'.standing n = d.standing n := by
  unfold copyMode at h
  split at h
  · obtain ⟨mode, -, h⟩ := bind_eq_ok.1 h
    exact (standing_of_setMode h).2 n
  · cases h
    rfl

/-- Once all is prepared, the file beside the target holds the new content. -/
theorem standing_of_preparation (hroot : d.standing [] = .directory)
    (h : performAll c p content d (preparation c content) = (.ok (), d')) :
    d'.standing (Path.resolve d.here (temporary p)).parts = .file content := by
  obtain ⟨begun, hbegun, hlast⟩ := performAll_append_eq_ok.1 h
  have hkeeps := keeps_performAll hroot (by simp) hbegun
  obtain ⟨written, hwrite, hlast⟩ := performAll_cons_eq_ok.1 hlast
  obtain ⟨synced, hsync, hlast⟩ := performAll_cons_eq_ok.1 hlast
  obtain ⟨copied, hcopy, hdone⟩ := performAll_cons_eq_ok.1 hlast
  have hroot' : begun.standing [] = .directory := hkeeps.root hroot
  obtain ⟨names, hp, -, hbecomes⟩ := becomes_of_write hroot' (attempt_eq_ok hwrite)
  have hwritten : written.standing (Path.resolve d.here (temporary p)).parts = .file content := by
    rw [← hkeeps.here, ← parts_of_settle hroot' hp, hbecomes.self, List.take_length]
  cases attempt_eq_ok hsync
  cases hdone
  rw [standing_of_copyMode (attempt_eq_ok hcopy), hwritten]

end Preparation

/-! ## The target changes -/

/-- A replacement that has taken place. -/
structure Replaced (d after : Disk) (p : Path) (content : Bytes) : Prop where
  keeps : d.Keeps after (Beside d.here p)
  target : after.standing (Path.resolve d.here p).parts = .file content
  beside : after.standing (Path.resolve d.here (temporary p)).parts = .nothing
  read : after.read p = .ok content

theorem replaced_of_rename (hroot : d.standing [] = .directory) {prepared after : Disk}
    (hprepared : performAll c p content d (preparation c content) = (.ok (), prepared))
    (hrename : prepared.rename (temporary p) p = .ok after) : d.Replaced after p content := by
  have hkeeps := keeps_performAll hroot (rename_not_mem_preparation c content) hprepared
  have hroot' : prepared.standing [] = .directory := hkeeps.root hroot
  have hfile := standing_of_preparation hroot hprepared
  rw [← hkeeps.here] at hfile
  have hplain := ne_directory_of_file hfile
  obtain ⟨old, -, hold, -⟩ := settle_of_rename hrename
  obtain rfl := parts_of_settle hroot' hold
  obtain ⟨moved, names, between, hmoved, htarget, hgone, -, hplaced⟩ :=
    becomes_of_rename hroot' hrename hold hplain
  obtain rfl := parts_of_settle hroot' htarget
  obtain rfl : content = moved := Standing.file.inj (hfile.symm.trans hmoved)
  have hne := resolve_temporary_ne prepared.here p
  have hlast := keeps_rename hroot' hrename hplain
  have hread := read_of_rename hroot' hrename (read_eq_ok.2 ⟨_, hold, hfile⟩)
  rw [hkeeps.here] at hlast hgone hplaced hne
  exact ⟨(hkeeps.mono fun _ => .inr).trans hlast, hplaced.self,
    (hplaced.other hne).trans hgone.self, hread⟩

/-- All steps of a replacement, each of which may fail. -/
theorem performAll_cases (hroot : d.standing [] = .directory) {result : Except FileError Unit}
    (h : performAll c p content d (replaceSteps c content) = (result, d')) :
    (∃ e, result = .error e ∧ d.Keeps d' (· = (Path.resolve d.here (temporary p)).parts)) ∨
      result = .ok () ∧ d.Replaced d' p content := by
  rw [replaceSteps, performAll_append] at h
  split at h
  · next prepared hprepared =>
    rw [performAll] at h
    split at h
    · next e hfails =>
      cases h
      exact .inl ⟨e, rfl, keeps_performAll hroot (rename_not_mem_preparation c content) hprepared⟩
    · next after hrename =>
      cases h
      exact .inr ⟨rfl, replaced_of_rename hroot hprepared (attempt_eq_ok hrename)⟩
  · next e left hprepared =>
    cases h
    exact .inl ⟨e, rfl, keeps_performAll hroot (rename_not_mem_preparation c content) hprepared⟩

/-! ## The cleanup -/

theorem remove_of_unlink (h : unlink c p d = .ok d') : d.remove (temporary p) = .ok d' := by
  unfold unlink at h
  split at h
  · cases h
  · exact h

/-- The cleanup removes the file beside the target or fails itself. -/
theorem clear_cases (hroot : d.standing [] = .directory) (c : Course) (p : Path) (e : FileError) :
    ∃ f after, clear c p e d = (.error f, after) ∧
      d.Keeps after (· = (Path.resolve d.here (temporary p)).parts) ∧
      (f = e ∧ after.exists? (temporary p) = false ∨
        d.exists? (temporary p) = true ∧ unlink c p d = .error f) := by
  unfold clear
  split
  · next hexists =>
    split
    · next after hunlink =>
      have hremove := remove_of_unlink hunlink
      have hkeeps := keeps_remove hroot hremove
      obtain ⟨names, hp, -, hbecomes⟩ := becomes_of_remove hroot hremove
      have hnothing := hbecomes.self
      rw [parts_of_settle hroot hp, ← hkeeps.here] at hnothing
      exact ⟨e, after, rfl, hkeeps,
        .inl ⟨rfl, exists?_eq_false (hkeeps.root hroot) hnothing⟩⟩
    · next f hunlink => exact ⟨f, d, rfl, .refl .., .inr ⟨hexists, hunlink⟩⟩
  · next habsent => exact ⟨e, d, rfl, .refl .., .inl ⟨rfl, Bool.eq_false_iff.2 habsent⟩⟩

/-! ## Failures and stages -/

/-- Some step fails on a disk that those before it have left. -/
def Fails (c : Course) (d : Disk) (p : Path) (content : Bytes) (left : Disk) (e : FileError) :
    Prop :=
  ∃ before s rest, replaceSteps c content = before ++ s :: rest ∧
    performAll c p content d before = (.ok (), left) ∧ attempt c p content left s = .error e

theorem fails_iff {left : Disk} {e : FileError} : Fails c d p content left e ↔
    performAll c p content d (replaceSteps c content) = (.error e, left) := by
  constructor
  · rintro ⟨before, s, rest, hsteps, hbefore, hfails⟩
    rw [hsteps]
    exact performAll_eq_error hbefore hfails
  · exact exists_of_performAll_eq_error

/-- The disk after so many steps, or as the step that failed has left it. -/
def stage (c : Course) (d : Disk) (p : Path) (content : Bytes) (n : Nat) : Disk :=
  (performAll c p content d ((replaceSteps c content).take n)).2

theorem stage_cases (hroot : d.standing [] = .directory) (c : Course) (p : Path) (content : Bytes)
    (n : Nat) :
    d.Keeps (stage c d p content n) (· = (Path.resolve d.here (temporary p)).parts) ∨
      d.Replaced (stage c d p content n) p content := by
  by_cases hn : n ≤ (preparation c content).length
  · -- Whatever is cut off here, the renaming is.
    have htake : (replaceSteps c content).take n = (preparation c content).take n :=
      List.take_append_of_le_length hn
    have hsteps : .rename ∉ (preparation c content).take n := fun h =>
      rename_not_mem_preparation c content (List.mem_of_mem_take h)
    rw [stage, htake]
    exact .inl (keeps_performAll hroot hsteps rfl)
  · have htake : (replaceSteps c content).take n = replaceSteps c content :=
      List.take_of_length_le (by simp [replaceSteps]; omega)
    rw [stage, htake]
    exact (performAll_cases hroot rfl).imp (fun ⟨_, _, h⟩ => h) And.right

section Whole

variable (hroot : d.standing [] = .directory)

include hroot

/-- A step that fails leaves an error and, but for the file beside the target, all as it was. -/
theorem replaceInterrupted_of_fails (hparts : p.parts ≠ []) {left : Disk} {e : FileError}
    (h : Fails c d p content left e) :
    ∃ f after, replaceInterrupted c d p content = (.error f, after) ∧
      d.Keeps after (· = (Path.resolve d.here (temporary p)).parts) ∧
      (f = e ∧ after.exists? (temporary p) = false ∨
        left.exists? (temporary p) = true ∧ unlink c p left = .error f) := by
  have hrun := fails_iff.1 h
  rcases performAll_cases hroot hrun with ⟨-, -, hkeeps⟩ | ⟨hok, -⟩
  · obtain ⟨f, after, hclear, hkept, hraised⟩ := clear_cases (hkeeps.root hroot) c p e
    rw [hkeeps.here] at hkept
    refine ⟨f, after, ?_, hkeeps.trans hkept, hraised⟩
    rw [replaceInterrupted, if_neg hparts, hrun]
    exact hclear
  · cases hok

theorem replaceInterrupted_cases (c : Course) (hparts : p.parts ≠ []) (content : Bytes) :
    (∃ after, replaceInterrupted c d p content = (.ok (), after) ∧ d.Replaced after p content) ∨
      ∃ left e, Fails c d p content left e := by
  cases hrun : performAll c p content d (replaceSteps c content) with
  | mk result left =>
    rcases performAll_cases hroot hrun with ⟨e, rfl, -⟩ | ⟨rfl, hreplaced⟩
    · exact .inr ⟨left, e, fails_iff.2 hrun⟩
    · exact .inl ⟨left, by rw [replaceInterrupted, if_neg hparts, hrun], hreplaced⟩

theorem replaced_of_eq_ok {after : Disk} (h : replaceInterrupted c d p content = (.ok (), after)) :
    d.Replaced after p content := by
  have hparts : p.parts ≠ [] := by
    intro hparts
    rw [replaceInterrupted, if_pos hparts] at h
    cases h
  rcases replaceInterrupted_cases hroot c hparts content with ⟨_, hok, hreplaced⟩ | ⟨_, _, hfails⟩
  · rw [h] at hok
    cases hok
    exact hreplaced
  · obtain ⟨f, _, herror, -⟩ := replaceInterrupted_of_fails hroot hparts hfails
    rw [h] at herror
    cases herror

theorem keeps_or_replaced (c : Course) (p : Path) (content : Bytes) :
    d.Keeps (replaceInterrupted c d p content).2
        (· = (Path.resolve d.here (temporary p)).parts) ∨
      d.Replaced (replaceInterrupted c d p content).2 p content := by
  by_cases hparts : p.parts = []
  · rw [replaceInterrupted, if_pos hparts]
    exact .inl (.refl ..)
  · rcases replaceInterrupted_cases hroot c hparts content with ⟨_, h, hreplaced⟩ | ⟨_, _, hfails⟩
    · rw [h]
      exact .inr hreplaced
    · obtain ⟨f, after, h, hkeeps, -⟩ := replaceInterrupted_of_fails hroot hparts hfails
      rw [h]
      exact .inl hkeeps

/-- A replacement, finished or not, shows nowhere but at its file and beside it. -/
theorem alters_replaceInterrupted (c : Course) (p : Path) (content : Bytes) :
    d.Alters (replaceInterrupted c d p content).2 (Beside d.here p) fun _ => False :=
  (keeps_or_replaced hroot c p content).elim
    (fun h => (h.mono fun _ => .inr).alters) fun h => h.keeps.alters

end Whole

/-! ## Without interruptions -/

section Undisturbed

variable {names : List String} {old : Bytes}

theorem attempt_of_uninterrupted {s : ReplaceStep} (h : c.interrupts s = none) :
    attempt c p content d s = perform p content d s := by
  rw [attempt, h]

/-- A step of the preparation succeeds while there is a file beside the target. -/
theorem exists_perform (hroot : d.standing [] = .directory) {s : ReplaceStep} (hs : s ≠ .rename)
    (hbeside : d.settle (temporary p) = .ok names) (hfile : d.standing names = .file old)
    (content : Bytes) :
    ∃ d' new, perform p content d s = .ok d' ∧ d'.standing names = .file new := by
  have hplain := ne_directory_of_file hfile
  cases s with
  | create =>
    obtain ⟨d', h, hbecomes⟩ := exists_write hroot hbeside hplain []
    exact ⟨d', _, h, hbecomes.self⟩
  | write size =>
    obtain ⟨d', h, hbecomes⟩ := exists_write hroot hbeside hplain (content.take size)
    exact ⟨d', _, h, hbecomes.self⟩
  | sync => exact ⟨d, old, rfl, hfile⟩
  | copyMode =>
    rw [perform, copyMode]
    split
    · next hexists =>
      obtain ⟨e, hlookup⟩ := Option.isSome_iff_exists.1 hexists
      obtain ⟨target, hp, hat⟩ := lookup?_eq_some.1 hlookup
      have hstands : d.standing target ≠ .nothing := by simp [standing_eq_nothing_iff, hat]
      obtain ⟨mode, hmode⟩ := exists_mode hp hstands
      obtain ⟨d', hset⟩ := exists_setMode hbeside (ne_nothing_of_file hfile) mode
      refine ⟨d', old, ?_, ((standing_of_setMode hset).2 names).trans hfile⟩
      rw [hmode]
      exact hset
    · exact ⟨d, old, rfl, hfile⟩
  | rename => exact absurd rfl hs

theorem exists_performAll (hroot : d.standing [] = .directory) {steps : List ReplaceStep}
    (hsteps : .rename ∉ steps) (hc : ∀ s, c.interrupts s = none)
    (hbeside : d.settle (temporary p) = .ok names) (hfile : d.standing names = .file old)
    (content : Bytes) :
    ∃ d' new, performAll c p content d steps = (.ok (), d') ∧ d'.standing names = .file new := by
  induction steps generalizing d old with
  | nil => exact ⟨d, old, rfl, hfile⟩
  | cons s rest ih =>
    rw [List.mem_cons, not_or] at hsteps
    obtain ⟨between, new, hstep, hfile'⟩ :=
      exists_perform hroot (Ne.symm hsteps.1) hbeside hfile content
    have hkeeps := keeps_perform hroot (Ne.symm hsteps.1) hstep
    obtain ⟨d', last, hrest, hlast⟩ := ih (hkeeps.root hroot) hsteps.2
      (hkeeps.settle hbeside) hfile'
    rw [← attempt_of_uninterrupted (hc s)] at hstep
    exact ⟨d', last, performAll_cons_eq_ok.2 ⟨between, hstep, hrest⟩, hlast⟩

/-- A replacement that nothing interrupts succeeds where both names can take a file. -/
theorem exists_replaced (hroot : d.standing [] = .directory) (hc : ∀ s, c.interrupts s = none)
    (hparts : p.parts ≠ []) (hbeside : d.settle (temporary p) = .ok names)
    (hplain : d.standing names ≠ .directory) {target : List String}
    (htarget : d.settle p = .ok target) (hplain' : d.standing target ≠ .directory)
    (content : Bytes) :
    ∃ after, replaceInterrupted c d p content = (.ok (), after) := by
  obtain ⟨created, hcreate, hbecomes⟩ := exists_write hroot hbeside hplain []
  have hcreated : d.Keeps created _ := keeps_write hroot hcreate
  have hsteps : .rename ∉ (preparation c content).tail := fun h =>
    rename_not_mem_preparation c content (List.mem_of_mem_tail h)
  obtain ⟨prepared, new, hrest, hfile⟩ := exists_performAll (hcreated.root hroot) hsteps
    hc (hbecomes.settle hplain hbeside) hbecomes.self content
  have hprepared : performAll c p content d (preparation c content) = (.ok (), prepared) :=
    performAll_cons_eq_ok.2 ⟨created, (attempt_of_uninterrupted (hc _)).trans hcreate, hrest⟩
  have hkeeps := keeps_performAll hroot (rename_not_mem_preparation c content) hprepared
  obtain ⟨-, after, hrename, -⟩ := exists_rename (hkeeps.root hroot) (hkeeps.settle hbeside)
    hfile (hkeeps.settle htarget) (mt (hkeeps.directory target).1 hplain')
  have hlast : performAll c p content prepared [.rename] = (.ok (), after) :=
    performAll_cons_eq_ok.2 ⟨after, (attempt_of_uninterrupted (hc _)).trans hrename, rfl⟩
  refine ⟨after, ?_⟩
  rw [replaceInterrupted, if_neg hparts, replaceSteps, performAll_append_of_ok hprepared, hlast]

end Undisturbed

/-! ## Atomicity -/

/-- The disks that others can see while a file is replaced, and the last one. -/
def Passes (c : Course) (d : Disk) (p : Path) (content : Bytes) (m : Disk) : Prop :=
  (∃ n, m = stage c d p content n) ∨ m = (replaceInterrupted c d p content).2

/-- What a replacement promises, whatever interrupts it. -/
structure Atomic (c : Course) (d : Disk) (p : Path) (content : Bytes) : Prop where
  nameless : p.parts = [] → replaceInterrupted c d p content = (.error (.emptyName p), d)
  /-- It succeeds or one of its steps fails. -/
  ends : p.parts ≠ [] → (∃ after, replaceInterrupted c d p content = (.ok (), after)) ∨
    ∃ left e, Fails c d p content left e
  /-- It succeeds where nothing interrupts it and both names can take a file. -/
  undisturbed : (∀ s, c.interrupts s = none) → p.parts ≠ [] → ∀ beside target,
    d.settle (temporary p) = .ok beside → d.standing beside ≠ .directory →
    d.settle p = .ok target → d.standing target ≠ .directory →
    ∃ after, replaceInterrupted c d p content = (.ok (), after)
  succeeded : ∀ after, replaceInterrupted c d p content = (.ok (), after) →
    after.read p = .ok content ∧ after.exists? (temporary p) = false
  /-- The error that is raised is the one of the step, unless the cleanup has its own. -/
  failed : p.parts ≠ [] → ∀ left e, Fails c d p content left e →
    ∃ f after, replaceInterrupted c d p content = (.error f, after) ∧
      after.own (Path.resolve d.here p).parts = d.own (Path.resolve d.here p).parts ∧
      (f = e ∧ after.exists? (temporary p) = false ∨
        left.exists? (temporary p) = true ∧ unlink c p left = .error f)
  target : ∀ m, Passes c d p content m →
    m.own (Path.resolve d.here p).parts = d.own (Path.resolve d.here p).parts ∨
      m.standing (Path.resolve d.here p).parts = .file content
  others : ∀ m, Passes c d p content m → ∀ n, ¬ Beside d.here p n → m.own n = d.own n

/-- Whatever fails, a file is replaced as a whole or not at all, and no other file changes. The tree
has no symbolic or hard links. Its modes refuse nothing: that a step is not permitted is one of the
errors by which a course interrupts it. -/
theorem replaceInterrupted_atomic (hroot : d.standing [] = .directory) (c : Course) (p : Path)
    (content : Bytes) : Atomic c d p content := by
  have hne : (Path.resolve d.here p).parts ≠ (Path.resolve d.here (temporary p)).parts :=
    (resolve_temporary_ne d.here p).symm
  have hpasses : ∀ m, Passes c d p content m →
      d.Keeps m (· = (Path.resolve d.here (temporary p)).parts) ∨ d.Replaced m p content := by
    rintro m (⟨n, rfl⟩ | rfl)
    · exact stage_cases hroot c p content n
    · exact keeps_or_replaced hroot c p content
  constructor
  case nameless =>
    intro hparts
    rw [replaceInterrupted, if_pos hparts]
  case ends =>
    exact fun hparts => (replaceInterrupted_cases hroot c hparts content).imp_left
      fun ⟨after, h, _⟩ => ⟨after, h⟩
  case undisturbed =>
    exact fun hc hparts beside target hbeside hplain htarget hplain' =>
      exists_replaced hroot hc hparts hbeside hplain htarget hplain' content
  case succeeded =>
    intro after h
    have hreplaced := replaced_of_eq_ok hroot h
    have hgone := hreplaced.beside
    rw [← hreplaced.keeps.here] at hgone
    exact ⟨hreplaced.read, exists?_eq_false (hreplaced.keeps.root hroot) hgone⟩
  case failed =>
    intro hparts left e hfails
    obtain ⟨f, after, h, hkeeps, hraised⟩ := replaceInterrupted_of_fails hroot hparts hfails
    exact ⟨f, after, h, hkeeps.own _ hne, hraised⟩
  case target =>
    intro m hm
    exact (hpasses m hm).imp (fun hkeeps => hkeeps.own _ hne) fun hreplaced => hreplaced.target
  case others =>
    intro m hm n hn
    rcases hpasses m hm with hkeeps | hreplaced
    · exact hkeeps.own n (mt .inr hn)
    · exact hreplaced.keeps.own n hn

namespace Stale

/-- An old file with another one beside it that some replacement has left. -/
def disk : Disk :=
  { root := .directory 0o755
      [("a.js", .file 0o644 [97, 59]), (".a.js.script-doctor.tmp", .file 0o600 [0])] }

def path : Path := ⟨1, ["a.js"]⟩

def refusal : FileError := .system .denied (temporary path)

/-- Only one byte of the content gets written. -/
def course : Course :=
  { portions := [1], interrupts := fun s => if s = .write 2 then some refusal else none }

end Stale

theorem replaceInterrupted_atomic_sample :
    Stale.disk.standing [] = .directory ∧
      Atomic Stale.course Stale.disk Stale.path [98, 59] ∧
      (replaceInterrupted Stale.course Stale.disk Stale.path [98, 59]).1 =
        .error Stale.refusal ∧
      (replaceInterrupted {} Stale.disk Stale.path [98, 59]).1 = .ok () :=
  ⟨by decide, replaceInterrupted_atomic (by decide) _ _ _, by decide +kernel, by decide +kernel⟩

end Deadwood.Disk
