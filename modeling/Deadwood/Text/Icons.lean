import Deadwood.Bytes

/-!
Icons and what stands for them on a terminal that cannot show them.
-/
namespace Deadwood.Icons

/-- Each icon with its plain form, icons of two characters before their own first ones. -/
def table : List (String × String) := [
  ("⚠️", "[WARN]"),
  ("🏗️", "[BUILD]"),
  ("✓", "[OK]"),
  ("✅", "[OK]"),
  ("✗", "[FAIL]"),
  ("❌", "[FAIL]"),
  ("⚠", "[WARN]"),
  ("↩", "[ROLLBACK]"),
  ("⏭", "[SKIP]"),
  ("→", "->"),
  ("…", "..."),
  ("•", "*"),
  ("🩺", "[DOCTOR]"),
  ("🔍", "[SEARCH]"),
  ("🔄", "[DUP]"),
  ("📡", "[IPC]"),
  ("💾", "[BACKUP]"),
  ("🧪", "[TEST]"),
  ("📊", "[STATS]")]

/-- Replaces every occurrence, from the left; `skip` characters belong to the one before. -/
def replaceFrom (icon plain : List Char) (skip : Nat) : List Char → List Char
  | [] => []
  | c :: cs =>
    match skip with
    | k + 1 => replaceFrom icon plain k cs
    | 0 =>
      if icon.isPrefixOf (c :: cs) then plain ++ replaceFrom icon plain (icon.length - 1) cs
      else c :: replaceFrom icon plain 0 cs

def replace (icon plain : String) (cs : List Char) : List Char :=
  replaceFrom icon.toList plain.toList 0 cs

def plainText (text : String) : String :=
  String.ofList (table.foldl (fun cs (icon, plain) => replace icon plain cs) text.toList)

/-- The encoding, an underscore read as a hyphen, is one of the two names of UTF-8. -/
def showsIcons (encoding : String) : Bool :=
  let name := String.ofList (encoding.toList.map fun c => if c = '_' then '-' else c)
  name = "utf-8" || name = "utf8"

def sanitize (encoding text : String) : String :=
  if showsIcons encoding then text else plainText text

end Deadwood.Icons
