/-!
Arguments of a command line, split into options and words. An option has spellings that start with
one hyphen and one letter or with two hyphens; a valued one takes its value from the same argument
or from the next, whatever that looks like. Two hyphens alone end the options.
-/
namespace Deadwood

structure OptionForm where
  name : String
  spellings : List String
  valued : Bool := false
  deriving DecidableEq, Repr

inductive UsageError
  | noCommand
  | unknownCommand (name : String)
  | unknownOption (spelling : String)
  | valueMissing (spelling : String)
  | valueUnwanted (spelling : String)
  | badValue (spelling value : String)
  | argumentMissing (name : String)
  | argumentExtra (word : String)
  deriving DecidableEq, Repr

def UsageError.message : UsageError → String
  | .noCommand => "Missing command."
  | .unknownCommand name => s!"No such command '{name}'."
  | .unknownOption spelling => s!"No such option: {spelling}"
  | .valueMissing spelling => s!"Option '{spelling}' requires an argument."
  | .valueUnwanted spelling => s!"Option '{spelling}' does not take a value."
  | .badValue spelling value => s!"Invalid value for '{spelling}': '{value}' is not a valid number."
  | .argumentMissing name => s!"Missing argument '{name}'."
  | .argumentExtra word => s!"Got unexpected extra argument ({word})"

/-- Options in the order given, each with its name and value, and the other arguments. -/
structure Arguments where
  options : List (String × String) := []
  words : List String := []
  deriving DecidableEq, Repr

namespace Arguments

def withOptions (found : List (String × String)) (a : Arguments) : Arguments :=
  { a with options := found ++ a.options }

def withWord (word : String) (a : Arguments) : Arguments := { a with words := word :: a.words }

def has (a : Arguments) (name : String) : Bool := a.options.any (·.1 == name)

def values (a : Arguments) (name : String) : List String :=
  (a.options.filter (·.1 == name)).map (·.2)

def last? (a : Arguments) (name : String) : Option String := (a.values name).getLast?

/-- Which of two opposite options was given last, if either was. -/
def switch? (a : Arguments) (on off : String) : Option Bool :=
  ((a.options.filter fun o => o.1 == on || o.1 == off).getLast?).map (·.1 == on)

/-- One argument's options, and the one of them whose value is the next argument. -/
structure Found where
  options : List (String × String) := []
  wanting : Option OptionForm := none

def form? (forms : List OptionForm) (spelling : String) : Option OptionForm :=
  forms.find? (·.spellings.contains spelling)

/-- Letters behind one hyphen, up to a valued one, whose value is the rest. -/
def letters (forms : List OptionForm) : List Char → Except UsageError Found
  | [] => .ok {}
  | c :: cs =>
    let spelling := String.ofList ['-', c]
    match form? forms spelling with
    | none => .error (.unknownOption spelling)
    | some f =>
      if ! f.valued then
        (letters forms cs).map fun r => { r with options := (f.name, "") :: r.options }
      else if cs.isEmpty then .ok { wanting := some f }
      else .ok { options := [(f.name, String.ofList cs)] }

def isLong (cs : List Char) : Bool := ['-', '-'].isPrefixOf cs

/-- A whole argument before its first equals sign, and what follows that. -/
def splitValue (cs : List Char) : String × Option String :=
  let spelling := cs.takeWhile (· ≠ '=')
  (String.ofList spelling, ((cs.drop spelling.length).tail?).map String.ofList)

def argument (forms : List OptionForm) (cs : List Char) : Except UsageError Found :=
  let (spelling, value?) := splitValue cs
  match form? (forms.map fun f => { f with spellings := f.spellings.filter (isLong ·.toList) })
      spelling, value? with
  | some f, some v =>
    if f.valued then .ok { options := [(f.name, v)] } else .error (.valueUnwanted spelling)
  | some f, none =>
    if f.valued then .ok { wanting := some f } else .ok { options := [(f.name, "")] }
  | none, _ => if isLong cs then .error (.unknownOption spelling) else letters forms (cs.drop 1)

def isOption (arg : String) : Bool := arg.toList.head? = some '-' && 1 < arg.length

/-- Splits arguments; unless they may be mixed, the first word ends the options. -/
def split (forms : List OptionForm) (mixed : Bool) : List String → Except UsageError Arguments
  | [] => .ok {}
  | arg :: rest =>
    if arg = "--" then .ok { words := rest }
    else if isOption arg then
      match argument forms arg.toList with
      | .error e => .error e
      | .ok ⟨options, none⟩ => (split forms mixed rest).map (withOptions options)
      | .ok ⟨options, some f⟩ =>
        match rest with
        | [] => .error (.valueMissing arg)
        | v :: rest => (split forms mixed rest).map (withOptions (options ++ [(f.name, v)]))
    else if mixed then (split forms mixed rest).map (withWord arg)
    else .ok { words := arg :: rest }

theorem split_words (forms : List OptionForm) (mixed : Bool) (words : List String) :
    split forms mixed ("--" :: words) = .ok { words } := by
  simp [split]

end Arguments

end Deadwood
