import Deadwood.Json.Basic
import Deadwood.Text.Utf8

/-!
Taking JSON values apart. What is not as expected is refused with a word about what was expected; a
field that is null counts as left out. Bytes are a text, or their hexadecimal digits if they are not
UTF-8.
-/
namespace Deadwood

def Json.bytes (content : Bytes) : Json :=
  match Utf8.decode content with
  | .ok s => .text s
  | .error _ => .object [("hex", .text content.toHex)]

abbrev Decode := Except String

namespace Decode

def field (j : Json) (name : String) : Decode Json :=
  match j.field? name with
  | some v => .ok v
  | none => .error s!"missing field {name}"

def optional (j : Json) (name : String) : Option Json :=
  match j.field? name with
  | some .null => none
  | r => r

def asText : Json → Decode String
  | .text s => .ok s
  | _ => .error "text expected"

def asInt : Json → Decode Int
  | .int n => .ok n
  | _ => .error "integer expected"

def asNat (j : Json) : Decode Nat := return (← asInt j).toNat

def asBool : Json → Decode Bool
  | .bool b => .ok b
  | _ => .error "boolean expected"

def asList : Json → Decode (List Json)
  | .list l => .ok l
  | _ => .error "list expected"

def asObject : Json → Decode (List (String × Json))
  | .object l => .ok l
  | _ => .error "object expected"

def asTexts (j : Json) : Decode (List String) := do (← asList j).mapM asText

def asHex (j : Json) : Decode Bytes := do
  match Bytes.ofHex? (← asText j) with
  | some b => return b
  | none => .error "hexadecimal digits expected"

def asBytes : Json → Decode Bytes
  | .text s => .ok (Utf8.encode s)
  | j => do asHex (← field j "hex")

def textOf (j : Json) (name : String) : Decode String := do asText (← field j name)
def natOf (j : Json) (name : String) : Decode Nat := do asNat (← field j name)
def bytesOf (j : Json) (name : String) : Decode Bytes := do asBytes (← field j name)

def maybe {α : Type} (j : Json) (name : String) (decode : Json → Decode α) : Decode (Option α) :=
  match optional j name with
  | some v => (decode v).map some
  | none => .ok none

def orElse {α : Type} (j : Json) (name : String) (decode : Json → Decode α) (default : α) :
    Decode α :=
  (maybe j name decode).map (·.getD default)

def listOf {α : Type} (j : Json) (name : String) (decode : Json → Decode α) : Decode (List α) :=
  orElse j name (fun l => do (← asList l).mapM decode) []

end Decode

end Deadwood
