import Deadwood.Json.Reader
import Deadwood.Machine
import Deadwood.Syntax.Flat

/-!
Snapshots. A snapshot names what a run is to see of the machine: the directory that it starts from,
the moment, the files to load, and the syntax trees of their texts and of the texts that come up on
the way.
-/
namespace Deadwood

structure Snapshot where
  here : Path
  now : Moment
  files : List Path
  grammar : Grammar

namespace Snapshot

def moment (j : Json) : Decode Moment := do
  match ← (← Decode.asList j).mapM Decode.asNat with
  | [year, month, day, hour, minute, second] => return ⟨year, month, day, hour, minute, second⟩
  | _ => .error "moment expected"

def ofJson (j : Json) : Decode Snapshot := do
  let here := Path.ofString (← Decode.textOf j "here")
  let files ← Decode.asTexts (← Decode.field j "files")
  return {
    here
    now := ← moment (← Decode.field j "now")
    files := files.map fun f => Path.resolve here (.ofString f)
    grammar := ← Grammar.ofJson (← Decode.field j "parses") }

def read (text : String) : Decode Snapshot := do
  ofJson (← (Json.read text).mapError (·.message))

/-- The machine that holds the contents loaded for the files of a snapshot. -/
def machine (s : Snapshot) (contents : List (Path × Bytes)) (serial : Nat) :
    Except FileError Machine := do
  let start ← ({ here := s.here } : Disk).makeDirectories s.here true
  let disk ← contents.foldlM (fun d (p, b) => d.store p b) start
  return { disk, now := s.now, serial }

end Snapshot

end Deadwood
