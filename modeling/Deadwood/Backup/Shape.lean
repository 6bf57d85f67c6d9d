import Deadwood.Json.Basic

/-!
Reading the fields of a manifest that someone else may have written. A value of another shape than
the one called for is refused when it is reached, with the class and the words of that refusal.
-/
namespace Deadwood.Backup

inductive Misshape
  | missing (field : String)
  | unindexed (value : Json)
  | withoutGet (value : Json)
  | notIterable (value : Json)
  | notPath (value : Json)
  | notPart (value : Json)
  | withoutLength (value : Json)
  deriving Repr

namespace Misshape

def typeName : Json → String
  | .null => "NoneType"
  | .bool _ => "bool"
  | .int _ => "int"
  | .double _ => "float"
  | .text _ => "str"
  | .list _ => "list"
  | .object _ => "dict"

def className : Misshape → String
  | .missing _ => "KeyError"
  | .withoutGet _ => "AttributeError"
  | _ => "TypeError"

def unindexedMessage : Json → String
  | .list _ => "list indices must be integers or slices, not str"
  | .text _ => "string indices must be integers, not 'str'"
  | j => s!"'{typeName j}' object is not subscriptable"

def message : Misshape → String
  | .missing field => s!"'{field}'"
  | .unindexed j => unindexedMessage j
  | .withoutGet j => s!"'{typeName j}' object has no attribute 'get'"
  | .notIterable j => s!"'{typeName j}' object is not iterable"
  | .notPath j => s!"expected str, bytes or os.PathLike object, not {typeName j}"
  | .notPart j => s!"unsupported operand type(s) for /: 'PosixPath' and '{typeName j}'"
  | .withoutLength j => s!"object of type '{typeName j}' has no len()"

end Misshape

/-- A field that has to be there. -/
def field (j : Json) (name : String) : Except Misshape Json :=
  match j with
  | .object _ =>
    match j.field? name with
    | some v => .ok v
    | none => .error (.missing name)
  | j => .error (.unindexed j)

def rootOf (manifest : Json) : Except Misshape String := do
  match ← field manifest "projectRoot" with
  | .text s => return s
  | j => .error (.notPath j)

/-- The members of a value: an object has its names for members and a text its characters. -/
def members : Json → Except Misshape (List Json)
  | .list l => .ok l
  | .object fields => .ok (fields.map fun (k, _) => .text k)
  | .text s => .ok (s.toList.map fun c => .text (String.singleton c))
  | j => .error (.notIterable j)

/-- The number of members. -/
def lengthOf (j : Json) : Except Misshape Nat :=
  ((members j).map List.length).mapError fun _ => .withoutLength j

def recordsOf (manifest : Json) : Except Misshape (List Json) :=
  match manifest with
  | .object _ => ((manifest.field? "files").map members).getD (.ok [])
  | j => .error (.withoutGet j)

def pathOf (record : Json) : Except Misshape String := do
  match ← field record "path" with
  | .text s => return s
  | j => .error (.notPart j)

end Deadwood.Backup
