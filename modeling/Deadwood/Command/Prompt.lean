import Deadwood.Text.Blank

/-!
Questions to be answered with yes or no. A line that is no answer has the question asked again; an
empty one means no.
-/
namespace Deadwood.Prompt

def answer? (line : String) : Option Bool :=
  match Text.trimmed (Text.lowerAscii line) with
  | "y" | "yes" => some true
  | "n" | "no" | "" => some false
  | _ => none

/-- The lines of an input, whatever ends them. -/
def lines (input : String) : List String :=
  let pieces := (Text.unifyLineEnds input.toList).splitOn '\n'
  (if pieces.getLast? = some [] then pieces.dropLast else pieces).map String.ofList

/-- A question as put, with the lines read in reply, and what they leave. -/
structure Asked where
  output : String
  answer : Option Bool
  left : List String
  deriving DecidableEq, Repr

def put (question : String) : String := s!"{question} [y/N]: "

def ask (question : String) : List String → Asked
  | [] => ⟨put question, none, []⟩
  | line :: rest =>
    match answer? line with
    | some b => ⟨put question ++ line ++ "\n", some b, rest⟩
    | none =>
      let next := ask question rest
      { next with output := put question ++ line ++ "\nError: invalid input\n" ++ next.output }

end Deadwood.Prompt
