import Deadwood.Proofs.Backup.Coverage
import Deadwood.Proofs.Disk.Making

/-!
Where a backup goes: into a directory with a name of its own, that stood nowhere before and is left
in a directory that keeps backups.
-/
namespace Deadwood

/-! ## The name -/

theorem Moment.slash_not_mem_padded (width n : Nat) : '/' ∉ (Moment.padded width n).toList := by
  rw [Moment.padded, String.toList_ofList, List.mem_append, not_or]
  refine ⟨fun h => absurd (List.eq_of_mem_replicate h) (by decide), fun h => ?_⟩
  rw [Nat.toString_eq_ofList_toDigits, String.toList_ofList] at h
  exact absurd (Nat.isDigit_of_mem_toDigits (by decide) (by decide) h) (by decide)

theorem Moment.slash_not_mem_compact (t : Moment) : '/' ∉ t.compact.toList := by
  simp [Moment.compact, toString_text, Moment.slash_not_mem_padded]

theorem Text.slash_not_mem_hexDigits (width n : Nat) : '/' ∉ Text.hexDigits width n := by
  have hdigit : ∀ d < 16, Bytes.hexDigit d ≠ '/' := by decide
  rw [Text.hexDigits, List.mem_map]
  rintro ⟨i, -, hi⟩
  exact hdigit _ (Nat.mod_lt _ (by decide)) hi

namespace Machine

variable (m : Machine)

theorem head_backupName : m.backupName.toList.head? = some 'b' := by
  simp [backupName, toString_text]

theorem isPart_backupName : Path.IsPart m.backupName := by
  refine ⟨fun h => ?_, fun h => ?_, ?_⟩
  · simpa [h] using m.head_backupName
  · simpa [h] using m.head_backupName
  · simp [backupName, toString_text, Moment.slash_not_mem_compact, Text.slash_not_mem_hexDigits]

theorem backupName_ne_up : m.backupName ≠ ".." := fun h => by simpa [h] using m.head_backupName

end Machine

namespace Backup

variable {dir root : Path} {m : Machine} {info : BackupInfo}

/-- The directory of a backup, below the root of the disk. -/
def keptAt (dir root : Path) (m : Machine) : List String :=
  (Path.resolve m.disk.here (place m dir (Path.resolve m.disk.here root))).parts

theorem keptAt_eq (dir root : Path) (m : Machine) : keptAt dir root m =
    (Path.resolve m.disk.here ((Path.resolve m.disk.here root).join dir)).parts ++
      [m.backupName] :=
  Path.parts_resolve_child _ _ m.backupName_ne_up

theorem exists_made_of_create (h : (create dir root m).1 = .ok info) :
    ∃ made,
      m.disk.makeDirectories (place m dir (Path.resolve m.disk.here root)) false = .ok made := by
  obtain ⟨files, hfill, -⟩ := fill_of_create h
  obtain ⟨_, made, hmade, -⟩ := Disk.Action.bind_eq_ok hfill
  exact ⟨made, Disk.Action.change_eq_ok.1 hmade⟩

/-- A backup is made where nothing stood. -/
theorem nothing_at_place (hroot : m.disk.standing [] = .directory)
    (h : (create dir root m).1 = .ok info) : m.disk.standing (keptAt dir root m) = .nothing := by
  obtain ⟨made, hmade⟩ := exists_made_of_create h
  obtain ⟨-, -, hnew⟩ := Disk.made_of_makeDirectories hroot hmade
  obtain ⟨between, hgrows, hmake⟩ := hnew rfl
  have hroot' := hgrows.directory hroot
  obtain ⟨names, hsettle, hnothing, -⟩ := Disk.becomes_of_makeDirectory hroot' hmake
  have hnames := (Disk.settleFrom_eq_ok hroot' (Disk.settle_eq_ok_iff.1 hsettle).2.2).1
  rw [hgrows.here] at hnames
  have hkept : names = keptAt dir root m := hnames
  exact hkept ▸ hgrows.nothing hnothing

end Backup

end Deadwood
