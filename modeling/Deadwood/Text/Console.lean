import Deadwood.Text.Icons
import Deadwood.Text.Markup
import Deadwood.Text.Wrap

/-!
What a console without styles writes: items with a space between, texts read as markup and without
icons where it cannot show them, in lines of its width.
-/
namespace Deadwood.Console

/-- What a console is given to print: a text, or another value by its text. -/
inductive Item
  | text (s : String)
  | value (shown : String)
  deriving DecidableEq, Repr

/-- Only texts lose their icons and are read as markup. -/
def Item.shown (encoding : String) : Item → Except Markup.Fault (List Char)
  | .text s => Markup.plain (Icons.sanitize encoding s)
  | .value s => .ok s.toList

/-- Bells, backspaces, feeds other than line feeds and returns are never written. -/
def isSilent (c : Char) : Bool :=
  c = '\x07' || c = '\x08' || c = '\x0b' || c = '\x0c' || c = '\r'

def printed (width : Nat) (encoding : String) (items : List Item) :
    Except Markup.Fault String := do
  let shown ← items.mapM (Item.shown encoding)
  let text := String.ofList (([' '].intercalate shown).filter (! isSilent ·))
  let lines := (text.splitOn "\n").flatMap fun l => Wrap.wrap width l.toList
  return String.join (lines.map fun l => String.ofList l ++ "\n")

end Deadwood.Console
