import Deadwood.Digest.Sha256
import Deadwood.Json.Basic
import Deadwood.Syntax.Place
import Deadwood.Text.Blank

/-!
Fingerprints of function bodies. A body is flattened into tokens that keep its structure and drop
names, layout, comments and statement ends; the fingerprint is the digest of those tokens. Places
with equal fingerprints form a group of duplicates.
-/
namespace Deadwood

structure Fingerprint where
  hash : Bytes
  excerpt : String
  deriving DecidableEq, Repr

inductive Token
  | opening (type : String)
  | closing
  | erased (type : String)
  | leaf (type text : String)
  deriving DecidableEq, Repr

def Token.toJson : Token → Json
  | .opening type => .texts ["(", type]
  | .closing => .text ")"
  | .erased type => .list [.text type, .null]
  | .leaf type text => .texts [type, text]

namespace Fingerprint

/-- The token of a node without children; a semicolon and an empty node have none. -/
def leafToken (source : Bytes) (n : Node) : List Token :=
  if n.type = ";" ∨ n.isEmpty then []
  else if n.kind = .identifier then [.erased n.type]
  else [.leaf n.type (n.text source)]

mutual
def tokens (source : Bytes) : Node → List Token
  | .mk l cs =>
    if NodeKind.ofType l.type = .comment then []
    else if cs.isEmpty then leafToken source (.mk l cs)
    else .opening l.type :: tokensAll source cs ++ [.closing]

def tokensAll (source : Bytes) : List Node → List Token
  | [] => []
  | n :: rest => tokens source n ++ tokensAll source rest
end

def canonical (source : Bytes) (body : Node) : String :=
  (Json.list ((tokens source body).map Token.toJson)).compact

def excerptLength : Nat := 150

def openBrace : Char := '\x7b'
def closeBrace : Char := '\x7d'

def dropOpening : List Char → List Char
  | c :: rest => if c = openBrace then rest.dropWhile Text.isBlank else c :: rest
  | [] => []

def dropClosing (cs : List Char) : List Char :=
  if cs.getLast? = some closeBrace then Text.dropEndWhile Text.isBlank cs.dropLast else cs

/-- A body's text without its outer braces, shortened. -/
def summarize (text : String) : String :=
  String.ofList (Text.shorten excerptLength (dropClosing (dropOpening (Text.trim text.toList))))

def ofBody (source : Bytes) (body : Node) : Fingerprint :=
  { hash := Sha256.hash (Utf8.encode (canonical source body))
    excerpt := summarize (body.text source) }

/-- The body covers more rows than `minLines` after its first. -/
def spansEnough (source : Bytes) (minLines : Int) (body : Node) : Bool :=
  decide (minLines < (body.lastRow source : Int) - body.firstRow source)

end Fingerprint

def anonymousName : String := "<anonymous>"

/-- The name of a function, its own or the variable's that it is bound to. -/
def functionName (source : Bytes) (p : Place) : String :=
  match p.node.child? "name" with
  | some name => name.text source
  | none =>
    match p.parent? with
    | none => anonymousName
    | some parent =>
      if parent.node.kind = .variableDeclarator then
        match parent.node.child? "name" with
        | some name => if name.kind = .identifier then name.text source else anonymousName
        | none => anonymousName
      else anonymousName

structure Location where
  file : String
  startLine : Nat
  endLine : Nat
  name : String := anonymousName
  deriving DecidableEq, Repr

namespace Location

def order (a b : Location) : Ordering :=
  (((compare a.file b.file).then (compare a.startLine b.startLine)).then
    (compare a.endLine b.endLine)).then (compare a.name b.name)

def le (a b : Location) : Bool := (order a b).isLE

end Location

/-- One fingerprint at two or more places, of which `first` comes first in order. -/
structure DuplicateGroup where
  fingerprint : Fingerprint
  first : Location
  others : List Location
  deriving DecidableEq, Repr

namespace DuplicateGroup

def locations (g : DuplicateGroup) : List Location := g.first :: g.others

def le (a b : DuplicateGroup) : Bool :=
  ((compare a.first.file b.first.file).then (compare a.first.startLine b.first.startLine)).isLE

def ofMembers? (members : List (Fingerprint × Location)) : Option DuplicateGroup :=
  match members.mergeSort fun a b => a.2.le b.2 with
  | (fingerprint, first) :: (_, second) :: rest =>
    some ⟨fingerprint, first, second :: rest.map (·.2)⟩
  | _ => none

def collect (entries : List (Fingerprint × Location)) : List DuplicateGroup :=
  ((Keyed.group (·.1.hash) entries).filterMap fun (_, members) => ofMembers? members).mergeSort le

end DuplicateGroup

namespace Fingerprint

/-- The group member that a function makes, if its body covers enough lines. -/
def member? (source : Bytes) (file : String) (minLines : Int) (p : Place) :
    Option (Fingerprint × Location) := do
  guard p.node.kind.isFunctionLike
  let body ← p.node.child? "body"
  guard (spansEnough source minLines body)
  return (ofBody source body,
    { file
      startLine := p.node.firstRow source + 1
      endLine := p.node.lastRow source + 1
      name := functionName source p })

def members (source : Bytes) (file : String) (minLines : Int) (tree : Node) :
    List (Fingerprint × Location) :=
  (Place.preorder tree).filterMap (member? source file minLines)

end Fingerprint

end Deadwood
