import Deadwood.Digest.Sha256
import Deadwood.Json.Decode
import Deadwood.Syntax.Source

/-!
Trees written flat and tables of them. A flat tree is a list of numbers, six a node in document
order: the type and the field as indices of a list of names, two flags, the bytes covered from and
to, and how many children follow. A table finds the tree of a text by its language and digest.
-/
namespace Deadwood

namespace Flat

def named (flags : Nat) : Bool := flags % 2 = 1
def missing (flags : Nat) : Bool := flags / 2 % 2 = 1

/-- The label of the node that starts at an index; the empty name is no field. -/
def label (names : Array String) (data : Array Nat) (i : Nat) : Label :=
  let name (k : Nat) := names.getD (data.getD k 0) ""
  { type := name i
    field := some (name (i + 1)) |>.filter (· ≠ "")
    named := named (data.getD (i + 2) 0)
    missing := missing (data.getD (i + 2) 0)
    start := data.getD (i + 3) 0
    stop := data.getD (i + 4) 0 }

mutual
def nodeAt (names : Array String) (data : Array Nat) : Nat → Nat → Node × Nat
  | 0, i => (.mk (label names data i) [], i + 6)
  | fuel + 1, i =>
    let (children, next) := nodesAt names data fuel (data.getD (i + 5) 0) (i + 6)
    (.mk (label names data i) children, next)

def nodesAt (names : Array String) (data : Array Nat) : Nat → Nat → Nat → List Node × Nat
  | 0, _, i => ([], i)
  | _, 0, i => ([], i)
  | fuel + 1, count + 1, i =>
    let (n, next) := nodeAt names data fuel i
    let (rest, last) := nodesAt names data fuel count next
    (n :: rest, last)
end

/-- Reads a flat tree; every node takes at most two rounds and six numbers. -/
def tree (names : Array String) (data : Array Nat) : Node := (nodeAt names data data.size 0).1

/-- The tree of a text whose nodes do not matter. -/
def bare : Node := .mk ⟨"program", none, true, false, 0, 0⟩ []

def ofJson : Json → Decode Node
  | .bool _ => .ok bare
  | j => do
    let names ← Decode.asTexts (← Decode.field j "names")
    let data ← (← Decode.asList (← Decode.field j "nodes")).mapM Decode.asNat
    return tree names.toArray data.toArray

end Flat

namespace Grammar

def key (language : Language) (source : Bytes) : String :=
  language.name ++ ":" ++ (Sha256.hash source).toHex

def ofTable (table : Keyed String Node) : Grammar := fun language source =>
  (Keyed.get? table (key language source)).getD Flat.bare

theorem ofTable_eq (table : Keyed String Node) (language : Language) (source : Bytes) (tree : Node)
    (h : Keyed.get? table (key language source) = some tree) :
    ofTable table language source = tree := by
  simp [ofTable, h]

def ofJson (j : Json) : Decode Grammar := do
  let table ← (← Decode.asObject j).mapM fun (k, v) => return (k, ← Flat.ofJson v)
  return ofTable table

end Grammar

end Deadwood
