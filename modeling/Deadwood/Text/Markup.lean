import Deadwood.Text.Blank

/-!
Markup of a console: tags in brackets open and close styles. In text that is safe to print a bracket
that opens something like a tag gets a backslash, the backslashes before it are doubled, and so is a
lone one at the end. Printed without styles, markup is its text less the tags, if every tag that
closes a style finds it open.
-/
namespace Deadwood.Markup

def opensTag (c : Char) : Bool := ('a' ≤ c && c ≤ 'z') || c = '#' || c = '/' || c = '@'

/-- Characters after the first of a tag, its closing bracket included, if one closes it before
another opens. -/
def tagRest? (cs : List Char) : Option Nat :=
  let body := cs.takeWhile fun c => c ≠ ']' ∧ c ≠ '['
  if (cs.drop body.length).head? = some ']' then some (body.length + 1) else none

/-- Length of the tag that the characters start with. -/
def tag? : List Char → Option Nat
  | '[' :: c :: rest => if opensTag c then (tagRest? rest).map (· + 2) else none
  | _ => none

/-- Escapes characters after `skip` that belong to a tag and `pending` backslashes not written. -/
def escapeFrom (skip pending : Nat) : List Char → List Char
  | [] => List.replicate pending '\\'
  | c :: cs =>
    match skip with
    | k + 1 => c :: escapeFrom k 0 cs
    | 0 =>
      if c = '\\' then escapeFrom 0 (pending + 1) cs
      else match tag? (c :: cs) with
        | some n => List.replicate (2 * pending + 1) '\\' ++ c :: escapeFrom (n - 1) 0 cs
        | none => List.replicate pending '\\' ++ c :: escapeFrom 0 0 cs

def endsInLoneBackslash (cs : List Char) : Bool := (cs.reverse.takeWhile (· = '\\')).length = 1

def escape (text : String) : String :=
  let cs := escapeFrom 0 0 text.toList
  String.ofList (if endsInLoneBackslash cs then cs ++ ['\\'] else cs)

inductive Token
  | char (c : Char)
  | tag (body : List Char) (offset : Nat)
  deriving DecidableEq, Repr

/-- Tokens of markup from `offset` on, after `skip` characters that belong to a tag and `pending`
backslashes. Before a tag two backslashes are one and a single one makes the tag text; before any
other bracket one is dropped. -/
def tokensFrom (skip pending offset : Nat) : List Char → List Token
  | [] => List.replicate pending (.char '\\')
  | c :: cs =>
    match skip with
    | k + 1 => tokensFrom k 0 (offset + 1) cs
    | 0 =>
      if c = '\\' then tokensFrom 0 (pending + 1) (offset + 1) cs
      else match tag? (c :: cs) with
        | some n =>
          let tag :=
            if pending % 2 = 0 then [.tag (cs.take (n - 2)) offset]
            else (c :: cs.take (n - 1)).map .char
          List.replicate (pending / 2) (.char '\\') ++ tag ++ tokensFrom (n - 1) 0 (offset + 1) cs
        | none =>
          List.replicate (if c = '[' then pending - 1 else pending) (.char '\\') ++
            .char c :: tokensFrom 0 0 (offset + 1) cs

inductive Fault
  | unopened (tag : String) (offset : Nat)
  | nothingOpen (offset : Nat)
  deriving DecidableEq, Repr

def Fault.message : Fault → String
  | .unopened tag n => s!"closing tag '[{tag}]' at position {n} doesn't match any open tag"
  | .nothingOpen n => s!"closing tag '[/]' at position {n} has nothing to close"

/-- A style's name, in lower case with single spaces. -/
def styleName (cs : List Char) : String :=
  Text.lowerAscii (" ".intercalate ((Text.words (Text.trim cs)).map fun w =>
    String.ofList (Text.trim w)))

/-- The styles open after a tag. What follows an equals sign belongs to no name. -/
def Token.open? (styles : List String) : Token → Except Fault (List String)
  | .char _ => .ok styles
  | .tag body offset =>
    match body.takeWhile (· ≠ '=') with
    | '/' :: name =>
      match styleName name with
      | "" => if styles = [] then .error (.nothingOpen offset) else .ok styles.tail
      | style =>
        if style ∈ styles then .ok (styles.erase style)
        else .error (.unopened (String.ofList body) offset)
    | name => .ok (styleName name :: styles)

def Token.text : Token → List Char
  | .char c => [c]
  | .tag _ _ => []

def plain (markup : String) : Except Fault (List Char) := do
  let tokens := tokensFrom 0 0 0 markup.toList
  let _ ← tokens.foldlM Token.open? []
  return tokens.flatMap Token.text

end Deadwood.Markup
