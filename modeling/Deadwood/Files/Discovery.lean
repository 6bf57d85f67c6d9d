import Deadwood.Path
import Deadwood.Text.Glob

/-!
Which files of a project count. A file counts if its path below the root matches a pattern and no
entry to ignore: a plain name ignores what lies below directories of that name, a wild one the
files whose name or path it matches.
-/
namespace Deadwood

/-- Patterns of the files to find and entries to ignore. -/
structure Discovery where
  patterns : List String := [
    "**/*.js", "**/*.jsx", "**/*.mjs", "**/*.cjs", "**/*.ts", "**/*.tsx", "**/*.mts", "**/*.cts"]
  ignored : List String := [
    "node_modules", "dist", "build", ".git", "*.min.js", "*.bundle.js", "*.d.ts",
    ".script-doctor-backups"]
  deriving DecidableEq, Repr

namespace Discovery

/-- The pattern without a leading `**/`, which may also match no directory. -/
def withoutDirectories? (pattern : String) : Option String :=
  ("**/".toList.isPrefixOf? pattern.toList).map String.ofList

def matchesPattern (path pattern : String) : Bool :=
  Glob.accepts pattern path ||
    ((withoutDirectories? pattern).map (Glob.accepts · path)).getD false

def partsOf (path : String) : List String := (path.toList.splitOn '/').map String.ofList

def isIgnoredBy (path entry : String) : Bool :=
  let parts := partsOf path
  if Glob.isWild entry then
    Glob.accepts entry (parts.getLast?.getD "") || Glob.accepts entry path
  else parts.dropLast.contains entry || entry == path

def isIgnored (path : String) (ignored : List String) : Bool := ignored.any (isIgnoredBy path)

def accepts (d : Discovery) (path : String) : Bool :=
  ! isIgnored path d.ignored && d.patterns.any (matchesPattern path)

/-- The text of a path below a root, by its parts. -/
def below (parts : List String) : String := if parts.isEmpty then "." else "/".intercalate parts

def acceptsBelow (d : Discovery) (root path : Path) : Bool :=
  match path.relativeTo? root with
  | none => false
  | some parts => d.accepts (below parts)

/-- Ignores, besides, the directory in which backups are kept. -/
def alsoIgnoring (d : Discovery) (name : String) : Discovery :=
  { d with ignored := d.ignored ++ [name] }

end Discovery

end Deadwood
