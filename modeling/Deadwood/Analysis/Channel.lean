import Deadwood.Analysis.Symbol

/-!
Message channels. A call with a literal first argument defines or invokes the channel it names,
according to the forms that its callee's dotted name matches.
-/
namespace Deadwood

inductive ChannelRole
  | defined
  | invoked
  deriving DecidableEq, Repr

namespace ChannelRole

def name : ChannelRole → String
  | .defined => "Defined"
  | .invoked => "Invoked"

def ofName? : String → Option ChannelRole
  | "Defined" => some .defined
  | "Invoked" => some .invoked
  | _ => none

end ChannelRole

structure ChannelFact where
  channel : String
  file : String
  line : Nat
  role : ChannelRole
  deriving DecidableEq, Repr

/-- Callee forms that define a channel and those that invoke one. -/
structure ChannelForms where
  handlers : List String := ["ipcMain.handle", "ipcMain.handleOnce"]
  invokers : List String := ["ipcRenderer.invoke", "electronAPI.invoke"]
  deriving DecidableEq, Repr

namespace Channel

mutual
/-- Names along a chain of plain member accesses over an identifier. -/
def calleeParts (source : Bytes) : Node → Option (List String)
  | .mk l cs =>
    if l.type = "identifier" then some [(Node.mk l cs).text source]
    else if l.type = "member_expression" then
      match cs.find? (·.field == some "property") with
      | none => none
      | some property =>
        if Symbol.isMemberName property then
          (objectParts source cs).map (· ++ [property.text source])
        else none
    else none

/-- The chain of the first node that stands as an object. -/
def objectParts (source : Bytes) : List Node → Option (List String)
  | [] => none
  | n :: rest => if n.field == some "object" then calleeParts source n else objectParts source rest
end

def calleePath? (source : Bytes) (callee : Node) : Option String :=
  (calleeParts source callee).map (".".intercalate ·)

/-- A form matches the whole name or what follows one of its dots. -/
def matchesForm (callee form : String) : Bool :=
  callee == form || ('.' :: form.toList).isSuffixOf callee.toList

def role? (forms : ChannelForms) (callee : String) : Option ChannelRole :=
  if forms.handlers.any (matchesForm callee) then some .defined
  else if forms.invokers.any (matchesForm callee) then some .invoked
  else none

def literal? (source : Bytes) (n : Node) : Option String :=
  if n.kind = .string then some (unquoted (n.text source)) else none

def firstArgument? (call : Node) : Option Node :=
  (call.child? "arguments").bind (·.namedChildren.head?)

def fact? (forms : ChannelForms) (source : Bytes) (file : String) (call : Node) :
    Option ChannelFact := do
  guard (call.kind = .call)
  let callee ← (call.child? "function").bind (calleePath? source)
  let role ← role? forms callee
  let channel ← (firstArgument? call).bind (literal? source)
  return { channel, file, line := call.line source, role }

def facts (forms : ChannelForms) (source : Bytes) (file : String) (tree : Node) :
    List ChannelFact :=
  tree.preorder.filterMap (fact? forms source file)

end Channel

end Deadwood
