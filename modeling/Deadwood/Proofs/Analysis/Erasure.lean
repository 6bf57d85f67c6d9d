import Deadwood.Analysis.Fingerprint
import Deadwood.Proofs.Json.Compact
import Deadwood.Proofs.Removal.WellFormed
import Deadwood.Proofs.Text.Utf8

/-!
What a fingerprint keeps of a body. Names lose their text and comments, statement ends and empty
nodes go; what is left is the erased form. Two bodies have one canonical text exactly if they have
one erased form (`fingerprint_identifies_erasure`).
-/
namespace Deadwood

/-- What is left of a node: a name without its text, any other token with it, or a branch. -/
inductive Erased
  | name (type : String)
  | token (type text : String)
  | branch (type : String) (parts : List Erased)

namespace Erased

mutual
def tokens : Erased → List Token
  | .name type => [.erased type]
  | .token type text => [.leaf type text]
  | .branch type parts => .opening type :: tokensAll parts ++ [.closing]

def tokensAll : List Erased → List Token
  | [] => []
  | e :: rest => tokens e ++ tokensAll rest
end

theorem tokensAll_append (a b : List Erased) : tokensAll (a ++ b) = tokensAll a ++ tokensAll b := by
  induction a with
  | nil => rfl
  | cons e a ih => rw [List.cons_append, tokensAll, tokensAll, ih, List.append_assoc]

theorem tokens_append_ne_closing (e : Erased) (r s : List Token) :
    tokens e ++ r ≠ .closing :: s := by
  intro h
  cases e with
  | name | token => cases (List.cons.inj h).1
  | branch => cases (List.cons.inj h).1

mutual
/-- The tokens of an erased form end where the form ends, whatever follows. -/
theorem tokens_append_inj {a b : Erased} {r s : List Token}
    (h : tokens a ++ r = tokens b ++ s) : a = b ∧ r = s := by
  cases a with
  | name type =>
    cases b with
    | name type' =>
      obtain ⟨htype, hrest⟩ := List.cons.inj h
      cases htype
      exact ⟨rfl, hrest⟩
    | token | branch => cases (List.cons.inj h).1
  | token type text =>
    cases b with
    | token type' text' =>
      obtain ⟨htoken, hrest⟩ := List.cons.inj h
      cases htoken
      exact ⟨rfl, hrest⟩
    | name | branch => cases (List.cons.inj h).1
  | branch type parts =>
    cases b with
    | branch type' parts' =>
      simp only [tokens, List.cons_append, List.append_assoc, List.nil_append, List.cons.injEq,
        Token.opening.injEq] at h
      obtain ⟨rfl, hparts⟩ := h
      obtain ⟨rfl, hrest⟩ := tokensAll_append_inj hparts
      exact ⟨rfl, hrest⟩
    | name | token => cases (List.cons.inj h).1

theorem tokensAll_append_inj {as bs : List Erased} {r s : List Token}
    (h : tokensAll as ++ .closing :: r = tokensAll bs ++ .closing :: s) : as = bs ∧ r = s := by
  cases as with
  | nil =>
    cases bs with
    | nil => exact ⟨rfl, (List.cons.inj h).2⟩
    | cons b bs =>
      rw [tokensAll, tokensAll, List.append_assoc] at h
      exact absurd h.symm (tokens_append_ne_closing b _ _)
  | cons a as =>
    rw [tokensAll, List.append_assoc] at h
    cases bs with
    | nil => exact absurd h (tokens_append_ne_closing a _ _)
    | cons b bs =>
      rw [tokensAll, List.append_assoc] at h
      obtain ⟨rfl, hrest⟩ := tokens_append_inj h
      obtain ⟨rfl, rfl⟩ := tokensAll_append_inj hrest
      exact ⟨rfl, rfl⟩
end

end Erased

namespace Node

/-- Comments, and semicolons and empty nodes that have no children. -/
def isDropped (n : Node) : Bool :=
  n.kind = .comment || (n.isLeaf && (n.type = ";" || n.isEmpty))

mutual
def erase (source : Bytes) : Node → Option Erased
  | .mk l cs =>
    if (Node.mk l cs).isDropped then none
    else if ! cs.isEmpty then some (.branch l.type (eraseAll source cs))
    else if NodeKind.ofType l.type = .identifier then some (.name l.type)
    else some (.token l.type ((Node.mk l cs).text source))

def eraseAll (source : Bytes) : List Node → List Erased
  | [] => []
  | n :: rest => (erase source n).toList ++ eraseAll source rest
end

theorem erase_of_isDropped {n : Node} (source : Bytes) (h : n.isDropped = true) :
    n.erase source = none := by
  cases n
  rw [erase, if_pos h]

theorem erase_branch {n : Node} (source : Bytes) (h : n.isDropped = false)
    (hleaf : n.isLeaf = false) : n.erase source = some (.branch n.type (eraseAll source n.children)) := by
  cases n
  rw [erase, if_neg (by simp [h])]
  simp only [isLeaf, children] at hleaf
  rw [if_pos (by simp [hleaf])]
  rfl

theorem erase_leaf {n : Node} (source : Bytes) (h : n.isDropped = false)
    (hleaf : n.isLeaf = true) : n.erase source =
      if n.kind = .identifier then some (.name n.type) else some (.token n.type (n.text source)) := by
  cases n
  rw [erase, if_neg (by simp [h])]
  simp only [isLeaf, children] at hleaf
  rw [if_neg (by simp [hleaf])]
  rfl

end Node

namespace Fingerprint

open Node (eraseAll)

theorem tokens_of_comment {n : Node} (source : Bytes) (h : n.kind = .comment) :
    tokens source n = [] := by
  cases n
  exact if_pos h

theorem tokens_leaf {n : Node} (source : Bytes) (hcomment : n.kind ≠ .comment)
    (hleaf : n.isLeaf = true) : tokens source n = leafToken source n := by
  cases n
  exact (if_neg hcomment).trans (if_pos hleaf)

theorem tokens_branch {n : Node} (source : Bytes) (hcomment : n.kind ≠ .comment)
    (hleaf : n.isLeaf = false) :
    tokens source n = .opening n.type :: tokensAll source n.children ++ [.closing] := by
  cases n
  exact (if_neg hcomment).trans (if_neg (Bool.eq_false_iff.1 hleaf))

/-- A leaf has the token of its erased form. -/
theorem leafToken_eq {n : Node} (source : Bytes) (hcomment : n.kind ≠ .comment)
    (hleaf : n.isLeaf = true) :
    leafToken source n = Erased.tokensAll (n.erase source).toList := by
  by_cases hdrop : n.type = ";" ∨ n.isEmpty = true
  · rw [leafToken, if_pos hdrop, Node.erase_of_isDropped source (by simp [Node.isDropped, hleaf, hdrop])]
    rfl
  · have hkept : n.isDropped = false := by
      rw [not_or] at hdrop
      simp [Node.isDropped, hcomment, hdrop]
    rw [leafToken, if_neg hdrop, Node.erase_leaf source hkept hleaf]
    split
    · rfl
    · rfl

mutual
/-- The tokens of a node are those of its erased form. -/
theorem tokens_eq (source : Bytes) (n : Node) :
    tokens source n = Erased.tokensAll (n.erase source).toList := by
  cases n with
  | mk l cs =>
    by_cases hcomment : (Node.mk l cs).kind = .comment
    · rw [Node.erase_of_isDropped source (by simp [Node.isDropped, hcomment]),
        tokens_of_comment source hcomment]
      rfl
    · cases hleaf : (Node.mk l cs).isLeaf with
      | true => rw [tokens_leaf source hcomment hleaf, leafToken_eq source hcomment hleaf]
      | false =>
        have hkept : (Node.mk l cs).isDropped = false := by simp [Node.isDropped, hcomment, hleaf]
        rw [Node.erase_branch source hkept hleaf, tokens_branch source hcomment hleaf,
          Node.children, tokensAll_eq source cs]
        simp [Erased.tokensAll, Erased.tokens]

theorem tokensAll_eq (source : Bytes) (ns : List Node) :
    tokensAll source ns = Erased.tokensAll (eraseAll source ns) := by
  cases ns with
  | nil => rfl
  | cons n rest =>
    rw [tokensAll, tokens_eq source n, tokensAll_eq source rest, eraseAll, Erased.tokensAll_append]
end

theorem erase_eq_of_tokens {source source' : Bytes} {n n' : Node}
    (h : tokens source n = tokens source' n') : n.erase source = n'.erase source' := by
  rw [tokens_eq, tokens_eq] at h
  have hlists : (n.erase source).toList = (n'.erase source').toList :=
    (Erased.tokensAll_append_inj (congrArg (· ++ [Token.closing]) h)).1
  simpa using congrArg List.head? hlists

end Fingerprint

/-! ## Tokens as JSON -/

/-- A leaf of the type that marks an opening has that type as its text, and no branch has it. -/
def Token.IsRegular : Token → Prop
  | .opening type => type ≠ "("
  | .leaf type text => type = "(" → text = "("
  | .closing | .erased _ => True

theorem Token.isPlain_toJson (t : Token) : t.toJson.isPlain = true := by
  cases t <;> rfl

theorem Token.eq_of_toJson {t u : Token} (ht : t.IsRegular) (hu : u.IsRegular)
    (h : t.toJson = u.toJson) : t = u := by
  cases t with
  | opening type =>
    cases u with
    | opening type' => cases h; rfl
    | closing => cases h
    | erased type' => cases h
    | leaf type' text' => cases h; exact absurd (hu rfl) ht
  | closing =>
    cases u with
    | closing => rfl
    | opening | erased | leaf => cases h
  | erased type =>
    cases u with
    | erased type' => cases h; rfl
    | opening | closing | leaf => cases h
  | leaf type text =>
    cases u with
    | opening type' => cases h; exact absurd (ht rfl) hu
    | closing => cases h
    | erased type' => cases h
    | leaf type' text' => cases h; rfl

theorem Token.eq_of_map_toJson {ts us : List Token} (ht : ∀ t ∈ ts, t.IsRegular)
    (hu : ∀ u ∈ us, u.IsRegular) (h : ts.map Token.toJson = us.map Token.toJson) : ts = us := by
  induction ts generalizing us with
  | nil => exact (List.map_eq_nil_iff.1 h.symm).symm
  | cons t ts ih =>
    cases us with
    | nil => cases h
    | cons u us =>
      rw [List.forall_mem_cons] at ht hu
      obtain ⟨hhead, htail⟩ := List.cons.inj h
      rw [Token.eq_of_toJson ht.1 hu.1 hhead, ih ht.2 hu.2 htail]

/-- Every node of the type of an opening parenthesis is a leaf that covers just that. -/
def Node.IsParenthesized (source : Bytes) (n : Node) : Prop :=
  ∀ m ∈ n.preorder, m.type = "(" → m.isLeaf = true ∧ m.text source = "("

theorem Node.isParenthesized_iff {source : Bytes} {n : Node} :
    n.IsParenthesized source ↔ (n.type = "(" → n.isLeaf = true ∧ n.text source = "(") ∧
      ∀ m ∈ n.children, m.IsParenthesized source := by
  cases n with
  | mk l cs =>
    simp only [IsParenthesized, preorder, List.forall_mem_cons, preorderAll_eq_flatMap,
      List.mem_flatMap, forall_exists_index, and_imp, children]
    exact and_congr_right fun _ =>
      ⟨fun h c hc m hm => h m c hc hm, fun h m c hc hm => h c hc m hm⟩

namespace Fingerprint

mutual
theorem isRegular_of_mem_tokens {source : Bytes} {n : Node} (h : n.IsParenthesized source)
    {t : Token} (ht : t ∈ tokens source n) : t.IsRegular := by
  cases n with
  | mk l cs =>
    obtain ⟨hroot, hchildren⟩ := Node.isParenthesized_iff.1 h
    rw [tokens] at ht
    split at ht
    · cases ht
    · split at ht
      · rename_i hempty
        rw [leafToken] at ht
        split at ht
        · cases ht
        · split at ht
          · cases List.mem_singleton.1 ht
            trivial
          · cases List.mem_singleton.1 ht
            exact fun htype => (hroot htype).2
      · rename_i hbranch
        rw [List.cons_append, List.mem_cons, List.mem_append] at ht
        rcases ht with rfl | ht | ht
        · exact fun htype => hbranch (hroot htype).1
        · exact isRegular_of_mem_tokensAll hchildren ht
        · cases List.mem_singleton.1 ht
          trivial

theorem isRegular_of_mem_tokensAll {source : Bytes} {ns : List Node}
    (h : ∀ n ∈ ns, n.IsParenthesized source) {t : Token} (ht : t ∈ tokensAll source ns) :
    t.IsRegular := by
  cases ns with
  | nil => cases ht
  | cons n rest =>
    rw [List.forall_mem_cons] at h
    rw [tokensAll, List.mem_append] at ht
    rcases ht with ht | ht
    · exact isRegular_of_mem_tokens h.1 ht
    · exact isRegular_of_mem_tokensAll h.2 ht
end

/-- The canonical text and the erased form of a body determine each other. -/
theorem canonical_eq_iff {source source' : Bytes} {n n' : Node} (h : n.IsParenthesized source)
    (h' : n'.IsParenthesized source') :
    canonical source n = canonical source' n' ↔ n.erase source = n'.erase source' := by
  constructor
  · intro htexts
    have hplain : ∀ ts : List Token, (Json.list (ts.map Token.toJson)).isPlain = true := by
      intro ts
      refine Json.arePlain_iff.2 fun j hj => ?_
      obtain ⟨t, -, rfl⟩ := List.mem_map.1 hj
      exact t.isPlain_toJson
    have hjson := Json.list.inj (Json.eq_of_compact (hplain _) (hplain _) htexts)
    exact erase_eq_of_tokens (Token.eq_of_map_toJson (fun t => isRegular_of_mem_tokens h)
      (fun t => isRegular_of_mem_tokens h') hjson)
  · intro herased
    rw [canonical, canonical, tokens_eq, tokens_eq, herased]

end Fingerprint

/-! ## Bodies alike -/

/-- Two lists of siblings that differ in dropped nodes, in the texts of names and in where their
nodes stand, and in nothing else. -/
inductive Node.Alike (source source' : Bytes) : List Node → List Node → Prop
  | nil : Alike source source' [] []
  | dropLeft {n : Node} {ns ns' : List Node} (hn : n.isDropped = true)
      (hrest : Alike source source' ns ns') : Alike source source' (n :: ns) ns'
  | dropRight {n' : Node} {ns ns' : List Node} (hn' : n'.isDropped = true)
      (hrest : Alike source source' ns ns') : Alike source source' ns (n' :: ns')
  | name {n n' : Node} {ns ns' : List Node} (hn : n.isDropped = false)
      (hn' : n'.isDropped = false) (hleaf : n.isLeaf = true) (hleaf' : n'.isLeaf = true)
      (htype : n.type = n'.type) (hkind : n.kind = .identifier)
      (hrest : Alike source source' ns ns') : Alike source source' (n :: ns) (n' :: ns')
  | token {n n' : Node} {ns ns' : List Node} (hn : n.isDropped = false)
      (hn' : n'.isDropped = false) (hleaf : n.isLeaf = true) (hleaf' : n'.isLeaf = true)
      (htype : n.type = n'.type) (htext : n.text source = n'.text source')
      (hrest : Alike source source' ns ns') : Alike source source' (n :: ns) (n' :: ns')
  | branch {n n' : Node} {ns ns' : List Node} (hn : n.isDropped = false)
      (hn' : n'.isDropped = false) (hleaf : n.isLeaf = false) (hleaf' : n'.isLeaf = false)
      (htype : n.type = n'.type) (hchildren : Alike source source' n.children n'.children)
      (hrest : Alike source source' ns ns') : Alike source source' (n :: ns) (n' :: ns')

theorem Node.Alike.eraseAll_eq {source source' : Bytes} {ns ns' : List Node}
    (h : Alike source source' ns ns') : eraseAll source ns = eraseAll source' ns' := by
  induction h with
  | nil => rfl
  | dropLeft hn _ ih => rw [eraseAll, erase_of_isDropped source hn, ← ih]; rfl
  | dropRight hn' _ ih => rw [ih, eraseAll, erase_of_isDropped source' hn']; rfl
  | @name n n' ns ns' hn hn' hleaf hleaf' htype hkind _ ih =>
    have hkind' : n'.kind = .identifier := by rw [← hkind, kind, kind, htype]
    rw [eraseAll, eraseAll, ih, erase_leaf source hn hleaf, erase_leaf source' hn' hleaf',
      if_pos hkind, if_pos hkind', htype]
  | @token n n' ns ns' hn hn' hleaf hleaf' htype htext _ ih =>
    have hkind : n.kind = n'.kind := by rw [kind, kind, htype]
    rw [eraseAll, eraseAll, ih, erase_leaf source hn hleaf, erase_leaf source' hn' hleaf',
      hkind, htype, htext]
  | @branch n n' ns ns' hn hn' hleaf hleaf' htype _ _ ihchildren ih =>
    rw [eraseAll, eraseAll, ih, erase_branch source hn hleaf, erase_branch source' hn' hleaf',
      htype, ihchildren]

theorem Node.Alike.erase_eq {source source' : Bytes} {n n' : Node}
    (h : Alike source source' [n] [n']) : n.erase source = n'.erase source' := by
  have hlists := h.eraseAll_eq
  simp only [eraseAll, List.append_nil] at hlists
  simpa using congrArg List.head? hlists

namespace Fingerprint

/-- Two byte strings that are not the same and have the same digest. -/
def Collide (a b : Bytes) : Prop := a ≠ b ∧ Sha256.hash a = Sha256.hash b

/-- A fingerprint tells two bodies apart exactly by their erased forms, as long as the digest does
not collide. -/
theorem fingerprint_identifies_erasure {source source' : Bytes} {body body' : Node}
    (h : body.IsParenthesized source) (h' : body'.IsParenthesized source') :
    (canonical source body = canonical source' body' ↔ body.erase source = body'.erase source') ∧
    ((ofBody source body).hash = (ofBody source' body').hash ↔
      body.erase source = body'.erase source' ∨
        Collide (Utf8.encode (canonical source body)) (Utf8.encode (canonical source' body'))) ∧
    (Node.Alike source source' [body] [body'] →
      (ofBody source body).hash = (ofBody source' body').hash) := by
  have hcanonical := canonical_eq_iff h h'
  have hbytes : Utf8.encode (canonical source body) = Utf8.encode (canonical source' body') ↔
      body.erase source = body'.erase source' := by
    rw [← hcanonical]
    refine ⟨fun heq => ?_, congrArg Utf8.encode⟩
    simpa [Utf8.decode_encode] using congrArg Utf8.decode heq
  have hhash : body.erase source = body'.erase source' →
      (ofBody source body).hash = (ofBody source' body').hash :=
    fun heq => congrArg Sha256.hash (hbytes.2 heq)
  refine ⟨hcanonical, ⟨fun heq => ?_, ?_⟩, fun halike => hhash halike.erase_eq⟩
  · by_cases herased : body.erase source = body'.erase source'
    · exact .inl herased
    · exact .inr ⟨fun hsame => herased (hbytes.1 hsame), heq⟩
  · rintro (herased | hcollide)
    · exact hhash herased
    · exact hcollide.2

namespace Sample

open Deadwood.Sample (node token)

def source : Bytes := Utf8.encode "\x7b f(a); \x7d"

def call : Node :=
  node "call_expression" none 2 6 [node "identifier" none 2 3 [],
    node "arguments" none 3 6 [token "(" 3 4, node "identifier" none 4 5 [], token ")" 5 6]]

def body : Node :=
  node "statement_block" none 0 9 [token "\x7b" 0 1,
    node "expression_statement" none 2 7 [call, token ";" 6 7], token "\x7d" 8 9]

/-- Other names and lines, a comment, and no semicolon. -/
def renamedSource : Bytes := Utf8.encode "\x7b\n  gg(bc) // d\n\x7d"

def renamedCall : Node :=
  node "call_expression" none 4 10 [node "identifier" none 4 6 [],
    node "arguments" none 6 10 [token "(" 6 7, node "identifier" none 7 9 [], token ")" 9 10]]

def renamed : Node :=
  node "statement_block" none 0 17 [token "\x7b" 0 1,
    node "expression_statement" none 4 10 [renamedCall], node "comment" none 11 15 [],
    token "\x7d" 16 17]

/-- A string in place of the call. -/
def changedSource : Bytes := Utf8.encode "\x7b \"f\\n\"; \x7d"

def changed : Node :=
  node "statement_block" none 0 10 [token "\x7b" 0 1,
    node "expression_statement" none 2 8 [node "string" none 2 7 [token "\"" 2 3,
      node "string_fragment" none 3 4 [], token "escape_sequence" 4 6, token "\"" 6 7],
      token ";" 7 8], token "\x7d" 9 10]

theorem isParenthesized : body.IsParenthesized source ∧ renamed.IsParenthesized renamedSource ∧
    changed.IsParenthesized changedSource := by
  unfold Node.IsParenthesized
  decide +kernel

theorem alike : Node.Alike source renamedSource [body] [renamed] := by
  have hsemicolon : Node.Alike source renamedSource [token ";" 6 7] [] := .dropLeft rfl .nil
  have hstatement : Node.Alike source renamedSource [call, token ";" 6 7] [renamedCall] :=
    .branch rfl rfl rfl rfl rfl
      (.name rfl rfl rfl rfl rfl rfl <|
        .branch rfl rfl rfl rfl rfl
          (.token rfl rfl rfl rfl rfl (by decide +kernel) <|
            .name rfl rfl rfl rfl rfl rfl <|
            .token rfl rfl rfl rfl rfl (by decide +kernel) .nil) .nil) hsemicolon
  exact .branch rfl rfl rfl rfl rfl
    (.token rfl rfl rfl rfl rfl (by decide +kernel) <|
      .branch rfl rfl rfl rfl rfl hstatement <|
      .dropRight rfl <|
      .token rfl rfl rfl rfl rfl (by decide +kernel) .nil) .nil

end Sample

/-- A body, one like it, and one that is not. -/
theorem fingerprint_identifies_erasure_sample :
    (ofBody Sample.source Sample.body).hash =
      (ofBody Sample.renamedSource Sample.renamed).hash ∧
    canonical Sample.source Sample.body ≠ canonical Sample.changedSource Sample.changed := by
  obtain ⟨hbody, hrenamed, hchanged⟩ := Sample.isParenthesized
  refine ⟨(fingerprint_identifies_erasure hbody hrenamed).2.2 Sample.alike, ?_⟩
  rw [Ne, (fingerprint_identifies_erasure hbody hchanged).1]
  intro heq
  exact absurd (congrArg (Option.elim · [] Erased.tokens) heq) (by decide +kernel)

end Fingerprint

end Deadwood
