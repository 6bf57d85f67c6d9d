import Deadwood.Bytes

/-!
Edits of a byte string. Overlapping deletions merge and a deletion swallows any edit it contains;
every other overlap is a conflict. Edits without a conflict are spliced in from the last to the
first, so none moves the offsets of another.
-/
namespace Deadwood

structure Edit where
  start : Nat
  stop : Nat
  replacement : Bytes := []
  deriving DecidableEq, Repr

namespace Edit

def isDeletion (e : Edit) : Bool := e.replacement.isEmpty

/-- By start, the longer of two edits at one place first. -/
def le (a b : Edit) : Bool := ((compare a.start b.start).then (compare b.stop a.stop)).isLE

structure Conflict where
  earlier : Edit
  later : Edit
  deriving DecidableEq, Repr

def Conflict.message (c : Conflict) : String :=
  s!"Conflicting edits at bytes {c.earlier.start}-{c.earlier.stop} and {c.later.start}-{c.later.stop}"

def cover (a b : Edit) : Edit := ⟨a.start, max a.stop b.stop, []⟩

/-- Merges ordered edits into the one before them. -/
def mergeAfter (previous : Edit) : List Edit → Except Conflict (List Edit)
  | [] => .ok [previous]
  | e :: rest =>
    if e.start < previous.stop then
      if previous.isDeletion ∧ e.stop ≤ previous.stop then mergeAfter previous rest
      else if previous.isDeletion ∧ e.isDeletion then mergeAfter (cover previous e) rest
      else .error ⟨previous, e⟩
    else (mergeAfter e rest).map (previous :: ·)

def merge (edits : List Edit) : Except Conflict (List Edit) :=
  match edits.mergeSort le with
  | [] => .ok []
  | e :: rest => mergeAfter e rest

theorem merge_nil : merge [] = .ok [] := by simp [merge]

def splice (source : Bytes) (e : Edit) : Bytes :=
  source.take e.start ++ e.replacement ++ source.drop (max e.start e.stop)

def spliceAll (source : Bytes) (edits : List Edit) : Bytes :=
  edits.foldr (fun e b => splice b e) source

def apply (source : Bytes) (edits : List Edit) : Except Conflict Bytes :=
  (merge edits).map (spliceAll source)

theorem apply_nil (source : Bytes) : apply source [] = .ok source := by
  simp [apply, merge_nil, spliceAll, Except.map]

end Edit

end Deadwood
