import Deadwood.Backup.Restore
import Deadwood.Proofs.Json.Reading
import Deadwood.Proofs.Text.Utf8

/-!
Reading a manifest back. A manifest whose number of files can be written is read as it was written
(`Manifest.ofBytes_content`), with the root and the files that it was made of.
-/
namespace Deadwood

namespace Manifest

variable (timestamp root : String) (files : List SavedFile)

theorem areReadable_files (depth : Nat) (h : depth < Json.maxDepth) :
    Json.areReadable depth (files.map SavedFile.toJson) = true := by
  induction files with
  | nil => rfl
  | cons f files ih =>
    simp [Json.areReadable, ih, SavedFile.toJson, Json.isReadable, Json.haveReadable, Keyed.keys, h]

theorem isReadable_toJson (h : (ofFiles timestamp root files).isCountable = true) :
    Json.isReadable 0 (ofFiles timestamp root files).toJson = true := by
  have hdigits : (Nat.toDigits 10 files.length).length ≤ Number.maxDigits := by
    simpa [isCountable, ofFiles, Nat.toString_eq_ofList_toDigits] using h
  have hfiles := areReadable_files files 2 (by decide)
  simp [toJson, ofFiles, Json.isReadable, Json.haveReadable, Keyed.keys, Json.nat, hdigits, hfiles,
    Json.maxDepth]

theorem ofBytes_content {m : Manifest} (h : Json.isReadable 0 m.toJson = true) :
    ofBytes m.content = .ok m.toJson := by
  have hlines : Text.unifyLineEnds (m.toJson.pretty false).toList =
      (m.toJson.pretty false).toList := by
    rw [Json.pretty, String.toList_ofList]
    exact Text.unifyLineEnds_of_not_mem (Json.return_not_mem_prettyChars h 0)
  rw [ofBytes, content, Utf8.decode_encode]
  simp only [Except.mapError, bind, Except.bind]
  rw [hlines, String.ofList_toList, Json.read_pretty h]

theorem read_of_ofBytes {d : Disk} {backup : Path} {bytes : Bytes} {json : Json}
    (hread : d.read (place backup) = .ok bytes) (hbytes : ofBytes bytes = .ok json) :
    read d backup = .ok json := by
  rw [read, hread]
  exact hbytes

end Manifest

namespace Backup

variable (timestamp root : String) (files : List SavedFile)

theorem rootOf_toJson : rootOf (Manifest.ofFiles timestamp root files).toJson = .ok root := rfl

theorem recordsOf_toJson : recordsOf (Manifest.ofFiles timestamp root files).toJson =
    .ok (files.map SavedFile.toJson) := rfl

theorem pathOf_toJson (f : SavedFile) : pathOf f.toJson = .ok f.path := rfl

theorem digest_toJson (f : SavedFile) : field f.toJson "sha256" = .ok (.text f.digest) := rfl

end Backup

end Deadwood
