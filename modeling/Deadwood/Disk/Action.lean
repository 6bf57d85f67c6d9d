import Deadwood.Disk.Replace

/-!
Work on a disk that can fail on the way. What was changed before a failure stays changed.
-/
namespace Deadwood.Disk

abbrev Action (ε α : Type) := ExceptT ε (StateM Disk) α

namespace Action

variable {ε α β : Type}

def ask (f : Disk → Except ε α) : Action ε α := fun d => (f d, d)

/-- A change that either happens or leaves the disk as it was. -/
def change (f : Disk → Except ε Disk) : Action ε Unit := fun d =>
  match f d with
  | .ok d => (.ok (), d)
  | .error e => (.error e, d)

theorem change_of_error {f : Disk → Except ε Disk} {d : Disk} {e : ε} (h : f d = .error e) :
    change f d = (.error e, d) := by
  simp [change, h]

theorem bind_eq_ok {act : Action ε α} {next : α → Action ε β} {b : β} {d d' : Disk}
    (h : (act >>= next) d = (.ok b, d')) :
    ∃ a before, act d = (.ok a, before) ∧ next a before = (.ok b, d') := by
  simp only [bind, ExceptT.bind, ExceptT.mk, StateT.bind, ExceptT.bindCont] at h
  cases hact : act d with
  | mk result before =>
    rw [hact] at h
    cases result with
    | error e => cases h
    | ok a => exact ⟨a, before, rfl, h⟩

/-- Does the same with every item, in order, up to the first failure. -/
def each (act : α → Action ε β) : List α → Action ε (List β)
  | [] => return []
  | a :: rest => do
    let b ← act a
    return b :: (← each act rest)

/-- What is made of each item, in order. -/
theorem map_of_each {γ : Type} {act : α → Action ε β} {f : β → γ} {h : α → γ}
    (hact : ∀ a d b d', act a d = (.ok b, d') → f b = h a) {as : List α} {bs : List β}
    {d d' : Disk} (heach : each act as d = (.ok bs, d')) : bs.map f = as.map h := by
  induction as generalizing d bs with
  | nil =>
    cases heach
    rfl
  | cons a as ih =>
    rw [each] at heach
    obtain ⟨b, before, hb, hrest⟩ := bind_eq_ok heach
    obtain ⟨bs', after, hbs, hlast⟩ := bind_eq_ok hrest
    cases hlast
    rw [List.map_cons, List.map_cons, hact a d b before hb, ih hbs]

def mapError {ε' : Type} (wrap : ε → ε') (act : Action ε α) : Action ε' α := fun d =>
  let (r, d) := act d
  (r.mapError wrap, d)

end Action

end Deadwood.Disk
