import Deadwood.Path
import Deadwood.Text.Blank

/-!
The three languages that sources are written in, and the file names that select them.
-/
namespace Deadwood

inductive Language
  | javascript
  | typescript
  | tsx
  deriving DecidableEq, Repr

namespace Language

def name : Language → String
  | .javascript => "javascript"
  | .typescript => "typescript"
  | .tsx => "tsx"

def ofName? : String → Option Language
  | "javascript" => some .javascript
  | "typescript" => some .typescript
  | "tsx" => some .tsx
  | _ => none

theorem ofName?_name (l : Language) : ofName? l.name = some l := by cases l <;> rfl

def ofSuffix? : String → Option Language
  | ".js" | ".mjs" | ".cjs" | ".jsx" => some .javascript
  | ".ts" | ".mts" | ".cts" => some .typescript
  | ".tsx" => some .tsx
  | _ => none

def ofPath? (p : Path) : Option Language := ofSuffix? (Text.lowerAscii p.suffix)

end Language

end Deadwood
