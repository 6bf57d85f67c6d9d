import Deadwood.Analysis.Channel
import Deadwood.Proofs.Syntax.Comment
import Mathlib.Data.Option.Basic

/-!
First arguments. A channel and a required module are named by the first argument of a call, and
comments are no arguments. Both are found save where a comment opens the argument list.
-/
namespace Deadwood

open Channel (calleeParts calleePath? fact? firstArgument? literal? objectParts role?)

variable {source : Bytes} {call tree n : Node} {text : String}

theorem Channel.literal?_eq_some :
    literal? source n = some text ↔ n.kind = .string ∧ text = unquoted (n.text source) := by
  unfold literal?
  split
  · next h => simp [h, eq_comm]
  · next h => simp [h]

namespace Node

/-- The first of a call's arguments; comments are none. -/
def argument? (call : Node) : Option Node :=
  (call.child? "arguments").bind (·.namedChildren.find? (·.kind != .comment))

/-- The first argument of a call is a string with this text. -/
def Quotes (source : Bytes) (call : Node) (text : String) : Prop :=
  ∃ first, call.argument? = some first ∧ first.kind = .string ∧
    text = unquoted (first.text source)

/-- A comment stands before the arguments of a call. -/
def opensWithComment (call : Node) : Bool := (firstArgument? call).any (·.kind == .comment)

/-- What is taken for the first argument is it, unless a comment opens the list. -/
theorem firstArgument?_eq_some (hn : n.kind ≠ .comment) :
    firstArgument? call = some n ↔ call.argument? = some n ∧ call.opensWithComment = false := by
  unfold opensWithComment argument? firstArgument?
  cases call.child? "arguments" with
  | none => simp
  | some list =>
    simp only [Option.bind_some]
    cases list.namedChildren with
    | nil => simp
    | cons first rest =>
      rw [List.head?_cons, List.find?_cons, Option.any_some]
      by_cases hk : first.kind = .comment
      · simp only [hk, beq_self_eq_true, Bool.true_eq_false, and_false, iff_false,
          Option.some.injEq]
        rintro rfl
        exact hn hk
      · rw [bne_iff_ne.2 hk, beq_eq_false_iff_ne.2 hk]
        simp

theorem literal_firstArgument?_iff : (firstArgument? call).bind (literal? source) = some text ↔
    Quotes source call text ∧ call.opensWithComment = false := by
  rw [Option.bind_eq_some_iff]
  constructor
  · rintro ⟨first, hfirst, htext⟩
    obtain ⟨hkind, rfl⟩ := Channel.literal?_eq_some.1 htext
    obtain ⟨hargument, hopens⟩ := (firstArgument?_eq_some (by simp [hkind])).1 hfirst
    exact ⟨⟨first, hargument, hkind, rfl⟩, hopens⟩
  · rintro ⟨⟨first, hargument, hkind, rfl⟩, hopens⟩
    exact ⟨first, (firstArgument?_eq_some (by simp [hkind])).2 ⟨hargument, hopens⟩,
      Channel.literal?_eq_some.2 ⟨hkind, rfl⟩⟩

end Node

namespace Channel

variable {forms : ChannelForms} {file : String} {fact : ChannelFact}

/-- What a call says of a channel: the callee has one of the forms and the first argument names the
channel. -/
structure Reports (forms : ChannelForms) (source : Bytes) (file : String) (call : Node)
    (fact : ChannelFact) : Prop where
  isCall : call.kind = .call
  resolves : ∃ path, (call.child? "function").bind (calleePath? source) = some path ∧
    role? forms path = some fact.role
  quotes : call.Quotes source fact.channel
  file_eq : fact.file = file
  line_eq : fact.line = call.line source

theorem fact?_eq_some_iff : fact? forms source file call = some fact ↔
    Reports forms source file call fact ∧ call.opensWithComment = false := by
  constructor
  · intro h
    obtain ⟨_, hcall, h⟩ := Option.bind_eq_some_iff.1 h
    obtain ⟨path, hpath, h⟩ := Option.bind_eq_some_iff.1 h
    obtain ⟨role, hrole, h⟩ := Option.bind_eq_some_iff.1 h
    obtain ⟨channel, hchannel, h⟩ := Option.bind_eq_some_iff.1 h
    cases h
    obtain ⟨hquotes, hopens⟩ := Node.literal_firstArgument?_iff.1 hchannel
    exact ⟨⟨(Option.guard_eq_some' _).1 hcall, ⟨path, hpath, hrole⟩, hquotes, rfl, rfl⟩, hopens⟩
  · rintro ⟨⟨hcall, ⟨path, hpath, hrole⟩, hquotes, rfl, hline⟩, hopens⟩
    refine Option.bind_eq_some_iff.2 ⟨(), (Option.guard_eq_some' _).2 hcall, ?_⟩
    refine Option.bind_eq_some_iff.2 ⟨path, hpath, ?_⟩
    refine Option.bind_eq_some_iff.2 ⟨_, hrole, ?_⟩
    refine Option.bind_eq_some_iff.2 ⟨_, Node.literal_firstArgument?_iff.2 ⟨hquotes, hopens⟩, ?_⟩
    rw [← hline]
    rfl

end Channel

/-- A call of `require` whose first argument names the module. -/
structure Requires (source : Bytes) (call : Node) (name : String) : Prop where
  isCall : call.kind = .call
  isRequire : (call.child? "function").map (·.text source) = some "require"
  quotes : call.Quotes source name

/-- Reading the first argument comes last, whatever is looked at before. -/
theorem requireSource?_eq (source : Bytes) (call : Node) : requireSource? source call =
    if call.kind = .call ∧ (call.child? "function").map (·.text source) = some "require" then
      (firstArgument? call).bind (literal? source)
    else none := by
  have hliteral : literal? source = fun first => do
      guard (first.kind = NodeKind.string)
      return unquoted (first.text source) := by
    funext first
    by_cases hk : first.kind = .string
    · simp [literal?, hk, guard]
    · simp [literal?, hk, guard]
  unfold requireSource? firstArgument?
  rw [hliteral]
  by_cases hk : call.kind = .call
  · cases call.child? "function" with
    | none => simp
    | some callee =>
      by_cases hrequire : callee.text source = "require"
      · cases call.child? "arguments" with
        | none => simp
        | some list =>
          rw [if_pos ⟨hk, congrArg some hrequire⟩, (Option.guard_eq_some' ()).2 hk]
          simp only [Option.bind_eq_bind, Option.bind_some, (Option.guard_eq_some' ()).2 hrequire]
      · simp [hrequire, guard]
  · simp [hk, guard]

theorem requireSource?_eq_some_iff : requireSource? source call = some text ↔
    Requires source call text ∧ call.opensWithComment = false := by
  rw [requireSource?_eq]
  constructor
  · intro h
    split at h
    · next hcall =>
      obtain ⟨hquotes, hopens⟩ := Node.literal_firstArgument?_iff.1 h
      exact ⟨⟨hcall.1, hcall.2, hquotes⟩, hopens⟩
    · cases h
  · rintro ⟨⟨hcall, hrequire, hquotes⟩, hopens⟩
    rw [if_pos ⟨hcall, hrequire⟩]
    exact Node.literal_firstArgument?_iff.2 ⟨hquotes, hopens⟩

end Deadwood
