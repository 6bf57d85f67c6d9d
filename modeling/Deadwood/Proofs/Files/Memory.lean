import Deadwood.Files.Memory
import Deadwood.Proofs.Keyed

/-!
Reading files in memory after a write: the file that was written holds what was written, and every
other file what it held.
-/
namespace Deadwood

namespace Memory

variable {m : Memory} {p q : Path} {content : Bytes}

theorem write_eq (h : p ∉ m.unwritable) (content : Bytes) :
    m.write p content = (.ok (), { m.put p content with writes := m.writes ++ [p] }) := by
  rw [write, if_neg (by simpa using h)]

theorem read_put (h : p ∉ m.unreadable) (q : Path) (writes : List Path) :
    { m.put p content with writes }.read q = if q = p then .ok content else m.read q := by
  unfold read put
  dsimp only
  rw [Keyed.get?_set]
  by_cases hq : q = p
  · rw [if_pos hq, if_pos hq, if_neg (by simpa [hq] using h)]
  · rw [if_neg hq, if_neg hq]

theorem read_write_of_ne (hq : q ≠ p) (content : Bytes) :
    (m.write p content).2.read q = m.read q := by
  unfold write
  split
  · rfl
  · unfold read put
    dsimp only
    rw [Keyed.get?_set, if_neg hq]

theorem unwritable_write (content : Bytes) : (m.write p content).2.unwritable = m.unwritable := by
  unfold write
  split
  · rfl
  · rfl

/-- What can be read is not refused. -/
theorem not_mem_unreadable (h : m.read p = .ok content) : p ∉ m.unreadable := by
  intro hmem
  rw [read, if_pos (by simpa using hmem)] at h
  cases h

theorem read_write_self {old : Bytes} (hread : m.read p = .ok old)
    (hwrite : (m.write p content).1 = .ok ()) : (m.write p content).2.read p = .ok content := by
  have hwritable : p ∉ m.unwritable := by
    intro hmem
    rw [write, if_pos (by simpa using hmem)] at hwrite
    cases hwrite
  rw [write_eq hwritable, read_put (not_mem_unreadable hread), if_pos rfl]

end Memory

end Deadwood
