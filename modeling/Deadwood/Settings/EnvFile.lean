import Deadwood.Settings.Environment

/-!
Files of variables, a `KEY=VALUE` a line. A value is bare, up to a comment that blanks set off, or
quoted, raw in single quotes and with escapes in double ones. Values may refer to variables set
before. A line that cannot be read is passed over, and variables already set win.
-/
namespace Deadwood.EnvFile

def isInlineBlank (c : Char) : Bool := Text.isBlank c && c != '\n'

def skipInline (cs : List Char) : List Char := cs.dropWhile isInlineBlank

def skipRestOfLine (cs : List Char) : List Char := (cs.dropWhile (· ≠ '\n')).drop 1

def skipExport (cs : List Char) : List Char :=
  match "export".toList.isPrefixOf? cs with
  | none => cs
  | some rest => if (rest.head?.map isInlineBlank).getD false then skipInline rest else cs

/-- Text up to the first quote. A backslash takes the character after it along. -/
def untilQuote (quote : Char) : List Char → Option (List Char × List Char)
  | [] => none
  | '\\' :: c :: cs => (untilQuote quote cs).map fun (body, rest) => ('\\' :: c :: body, rest)
  | c :: cs =>
    if c = quote then some ([], cs)
    else (untilQuote quote cs).map fun (body, rest) => (c :: body, rest)

def singleEscape? : Char → Option Char
  | '\\' => some '\\'
  | '\x27' => some '\x27'
  | _ => none

def doubleEscape? : Char → Option Char
  | '\\' => some '\\'
  | '\x27' => some '\x27'
  | '"' => some '"'
  | 'a' => some '\x07'
  | 'b' => some '\x08'
  | 'f' => some '\x0c'
  | 'n' => some '\n'
  | 'r' => some '\r'
  | 't' => some '\t'
  | 'v' => some '\x0b'
  | _ => none

def unescape (escape? : Char → Option Char) : List Char → List Char
  | '\\' :: c :: cs =>
    match escape? c with
    | some d => d :: unescape escape? cs
    | none => '\\' :: unescape escape? (c :: cs)
  | c :: cs => c :: unescape escape? cs
  | [] => []

/-- The text before a hash that stands after a blank, blanks left on; `blank` if one went before. -/
def beforeComment (blank : Bool) : List Char → List Char
  | [] => []
  | c :: cs => if c = '#' ∧ blank then [] else c :: beforeComment (Text.isBlank c) cs

def bare (blank : Bool) (cs : List Char) : List Char :=
  Text.dropEndWhile Text.isBlank (beforeComment blank cs)

/-- Reading a part gives its value and what follows, or what was left where it failed. -/
abbrev Part (α : Type) := Except (List Char) (α × List Char)

def key? (cs : List Char) : Part (Option String) :=
  match cs with
  | '#' :: _ => .ok (none, cs)
  | '\x27' :: rest =>
    let name := rest.takeWhile (· ≠ '\x27')
    match rest.drop name.length with
    | _ :: after => if name = [] then .error cs else .ok (some (String.ofList name), after)
    | [] => .error cs
  | _ =>
    let name := cs.takeWhile fun c => c ≠ '=' ∧ c ≠ '#' ∧ ! Text.isBlank c
    if name = [] then .error cs else .ok (some (String.ofList name), cs.drop name.length)

def quotedValue (quote : Char) (escape? : Char → Option Char) (whole rest : List Char) :
    Part (List Char) :=
  match untilQuote quote rest with
  | none => .error whole
  | some (body, rest) => .ok (unescape escape? body, rest)

def value (blank : Bool) (cs : List Char) : Part (List Char) :=
  match cs with
  | '\x27' :: rest => quotedValue '\x27' singleEscape? cs rest
  | '"' :: rest => quotedValue '"' doubleEscape? cs rest
  | _ => .ok (bare blank (cs.takeWhile (· ≠ '\n')), cs.dropWhile (· ≠ '\n'))

def assigned (cs : List Char) : Part (Option (List Char)) :=
  match cs with
  | '=' :: rest =>
    let blank := (rest.head?.map isInlineBlank).getD false
    (value blank (skipInline rest)).map fun (v, rest) => (some v, rest)
  | _ => .ok (none, cs)

def skipComment (cs : List Char) : List Char :=
  match skipInline cs with
  | '#' :: rest => rest.dropWhile (· ≠ '\n')
  | _ => cs

def lineEnd (cs : List Char) : Part Unit :=
  match skipInline cs with
  | [] => .ok ((), [])
  | '\n' :: rest => .ok ((), rest)
  | _ => .error cs

abbrev Assignment := String × Option (List Char)

/-- One line, after the blanks before it. -/
def assignment (cs : List Char) : Except (List Char) (Option Assignment × List Char) := do
  let (key, cs) ← key? (skipExport cs)
  let (value, cs) ← assigned (skipInline cs)
  let (_, cs) ← lineEnd (skipComment cs)
  return (key.map (·, value), cs)

/-- The assignments of a text; each round takes at least one character. -/
def assignments : Nat → List Char → List Assignment
  | 0, _ => []
  | fuel + 1, cs =>
    match cs.dropWhile Text.isBlank with
    | [] => []
    | cs =>
      match assignment cs with
      | .ok (a, rest) => a.toList ++ assignments fuel rest
      | .error left => assignments fuel (skipRestOfLine left)

/-- A mark of the byte order may stand before everything. -/
def withoutMark : List Char → List Char
  | '\uFEFF' :: cs => cs
  | cs => cs

def read (text : String) : List Assignment :=
  let cs := Text.unifyLineEnds (withoutMark text.toList)
  assignments (cs.length + 1) cs

/-- Variables as a reference sees them: those of the environment before those of the file, of which
one without a value is empty. -/
def resolve (env : Environment) (set : Keyed String (Option String)) (name : String)
    (default : List Char) : List Char :=
  match Settings.get env name with
  | some v => v.toList
  | none =>
    match Keyed.get? set name with
    | some v => (v.getD "").toList
    | none => default

/-- A reference after its dollar: its name, its default and its length. -/
def reference? : List Char → Option (String × List Char × Nat)
  | '\x7b' :: cs =>
    let name := cs.takeWhile fun c => c ≠ '\x7d' ∧ c ≠ ':'
    match cs.drop name.length with
    | '\x7d' :: _ => some (String.ofList name, [], name.length + 2)
    | ':' :: '-' :: rest =>
      let default := rest.takeWhile (· ≠ '\x7d')
      match rest.drop default.length with
      | [] => none
      | _ => some (String.ofList name, default, name.length + default.length + 4)
    | _ => none
  | _ => none

/-- Replaces references, after `skip` characters that belong to the one before. -/
def expand (lookup : String → List Char → List Char) (skip : Nat) : List Char → List Char
  | [] => []
  | c :: cs =>
    match skip with
    | k + 1 => expand lookup k cs
    | 0 =>
      if c = '$' then
        match reference? cs with
        | some (name, default, n) => lookup name default ++ expand lookup n cs
        | none => c :: expand lookup 0 cs
      else c :: expand lookup 0 cs

def resolveAll (env : Environment) : Keyed String (Option String) → List Assignment →
    Keyed String (Option String)
  | set, [] => set
  | set, (name, none) :: rest => resolveAll env (Keyed.set set name none) rest
  | set, (name, some v) :: rest =>
    let v := String.ofList (expand (resolve env set) 0 v)
    resolveAll env (Keyed.set set name (some v)) rest

/-- Sets the variables of a file that have a value and that the environment does not have. -/
def load (env : Environment) (text : String) : Except VariableProblem Unit × Environment :=
  env.update ((resolveAll env [] (read text)).filter fun (name, v) =>
    v.isSome && (Settings.get env name).isNone)

end Deadwood.EnvFile
