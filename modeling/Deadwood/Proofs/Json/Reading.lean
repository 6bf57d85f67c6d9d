import Deadwood.Json.Reader
import Deadwood.Proofs.Json.Compact
import Deadwood.Proofs.Keyed
import Deadwood.Proofs.Number.Digits

/-!
Reading what was written. The indented text of a value without doubles, negative numbers and fields
of one name reads back as the value (`read_pretty`), as long as its numbers are not too long and its
lists and objects do not stand too deep.
-/
namespace Deadwood.Json

/-! ## Texts -/

theorem unit?_append {ds : List Char} (h : ds.length = 4) (rest : List Char) :
    unit? (ds ++ rest) = (unit? ds).map fun u => (u.1, rest) := by
  match ds, h with
  | [a, b, c, d], _ =>
    simp only [unit?, List.cons_append, List.nil_append, Option.pure_def, Option.bind_eq_bind,
      Option.map_bind, Function.comp_def, Option.map_some]

/-- The escape of a character, which a reader undoes. -/
def isUndone (c : Char) : Bool :=
  match escapeChar false c with
  | '\\' :: 'u' :: ds => ds.length == 4 && unit? ds == some (c.toNat, [])
  | ['\\', e] => simpleEscape? e == some c
  | _ => false

theorem isUndone_of_special {c : Char} (h : c ∈ specialChars) : isUndone c = true :=
  List.all_eq_true.1 (by decide +kernel : specialChars.all isUndone = true) c h

theorem textChars_escapeChar (start fuel : Nat) (acc : List Char) (c : Char) {rest : List Char}
    (hrest : rest ≠ []) :
    textChars start (fuel + 1) acc (escapeChar false c ++ rest) =
      textChars start fuel (c :: acc) rest := by
  by_cases hspecial : c ∈ specialChars
  · have hundone := isUndone_of_special hspecial
    unfold isUndone at hundone
    split at hundone
    · next ds hescape =>
      rw [Bool.and_eq_true, beq_iff_eq, beq_iff_eq] at hundone
      have hlength : ¬ (ds ++ rest).length ≤ 4 := by
        have := List.length_pos_iff.2 hrest
        simp only [List.length_append, hundone.1]
        omega
      have hsmall : ∀ c ∈ specialChars, c.toNat < 0xD800 :=
        List.all_iff_forall_prop.1 (by decide +kernel)
      have hpoint : codePoint? (ds ++ rest) = some (c, rest) := by
        have hc := hsmall c hspecial
        rw [codePoint?, unit?_append hundone.1, hundone.2]
        simp [Nat.not_le.2 hc, Nat.not_le.2 (Nat.lt_trans hc (by decide : 0xD800 < 0xDC00)), 
          Char.ofNat_toNat]
      rw [hescape, List.cons_append, List.cons_append, textChars, if_neg hlength, hpoint]
    · next e hu hescape =>
      rw [beq_iff_eq] at hundone
      rw [hescape, List.cons_append, List.cons_append, List.nil_append]
      obtain ⟨d, ds, rfl⟩ := List.exists_cons_of_ne_nil hrest
      rw [textChars, hundone]
      exact hu
    · cases hundone
  · rcases escapeChar_cases c with ⟨h, -⟩ | ⟨hquote, hslash, hplain⟩
    · exact absurd h hspecial
    · have hcontrol := Nat.not_lt.2 (le_toNat_of_not_special hspecial)
      rw [hplain, List.singleton_append, textChars]
      · rw [if_neg hcontrol]
      all_goals simp_all

/-- A quoted text is read up to its closing quote. -/
theorem textChars_escaped (start : Nat) {fuel : Nat} (acc cs : List Char) (rest : List Char)
    (hfuel : (cs.flatMap (escapeChar false)).length < fuel) :
    textChars start fuel acc (cs.flatMap (escapeChar false) ++ '"' :: rest) =
      .ok (String.ofList (acc.reverse ++ cs), rest) := by
  induction cs generalizing fuel acc with
  | nil =>
    obtain ⟨fuel, rfl⟩ := Nat.exists_eq_succ_of_ne_zero (Nat.ne_of_gt hfuel)
    rw [List.flatMap_nil, List.nil_append, textChars, List.append_nil]
  | cons c cs ih =>
    obtain ⟨fuel, rfl⟩ := Nat.exists_eq_succ_of_ne_zero (Nat.ne_of_gt (Nat.zero_lt_of_lt hfuel))
    have hpos : 0 < (escapeChar false c).length := by
      rcases escapeChar_cases c with ⟨-, tail, htail⟩ | ⟨-, -, hplain⟩
      · simp [htail]
      · simp [hplain]
    rw [List.flatMap_cons, List.length_append] at hfuel
    rw [List.flatMap_cons, List.append_assoc, textChars_escapeChar start fuel acc c (by simp),
      ih (c :: acc) (by omega), List.reverse_cons, List.append_assoc, List.singleton_append]

theorem textChars_quote (start : Nat) (s : String) (rest : List Char) :
    textChars start ('"' :: (s.toList.flatMap (escapeChar false) ++ '"' :: rest)).length []
      (s.toList.flatMap (escapeChar false) ++ '"' :: rest) = .ok (s, rest) := by
  have hfuel : (s.toList.flatMap (escapeChar false)).length <
      ('"' :: (s.toList.flatMap (escapeChar false) ++ '"' :: rest)).length := by
    simp only [List.length_cons, List.length_append]
    omega
  rw [textChars_escaped start [] s.toList rest hfuel, List.reverse_nil, List.nil_append,
    String.ofList_toList]

/-! ## Numbers -/

/-- What can follow a value: nothing, a comma or a line end. -/
def Ends (rest : List Char) : Prop :=
  ∀ c ∈ rest.head?, c = ',' ∨ c = '\n'

theorem Ends.not_digit {rest : List Char} (h : Ends rest) {c : Char} (hc : c ∈ rest.head?) :
    isDigit c = false := by
  rcases h c hc with rfl | rfl <;> rfl

theorem places_of_ends {rest : List Char} (h : Ends rest) : places rest = ([], rest) := by
  unfold places
  split
  · rcases h '.' rfl with h | h <;> cases h
  · rfl

theorem exponentMark?_of_ends {rest : List Char} (h : Ends rest) : exponentMark? rest = none := by
  cases rest with
  | nil => rfl
  | cons c cs => rcases h c rfl with rfl | rfl <;> rfl

theorem spanDigits_append {cs rest : List Char} (hcs : ∀ c ∈ cs, isDigit c = true)
    (hrest : Ends rest) : spanDigits (cs ++ rest) = (cs.filterMap Number.asciiDigit, rest) := by
  have hstop : rest.takeWhile isDigit = [] ∧ rest.dropWhile isDigit = rest := by
    cases rest with
    | nil => exact ⟨rfl, rfl⟩
    | cons c rest => simp [hrest.not_digit rfl]
  rw [spanDigits, List.takeWhile_append_of_pos hcs, List.dropWhile_append_of_pos hcs, hstop.1,
    hstop.2, List.append_nil]

theorem length_filterMap_asciiDigit {cs : List Char} (hcs : ∀ c ∈ cs, isDigit c = true) :
    (cs.filterMap Number.asciiDigit).length = cs.length := by
  induction cs with
  | nil => rfl
  | cons c cs ih =>
    rw [List.forall_mem_cons] at hcs
    obtain ⟨d, hd⟩ := Option.isSome_iff_exists.1 hcs.1
    rw [List.filterMap_cons_some hd, List.length_cons, ih hcs.2, List.length_cons]

theorem whole?_toDigits (n : Nat) {rest : List Char} (hrest : Ends rest) :
    ∃ digits, whole? (Nat.toDigits 10 n ++ rest) = some (digits, rest) ∧
      Number.ofDigits digits = n ∧ digits.length = (Nat.toDigits 10 n).length := by
  obtain ⟨hdigits, hvalue, hhead⟩ := Number.spells_toDigits n
  by_cases hn : n = 0
  · subst hn
    exact ⟨[0], rfl, rfl, rfl⟩
  · obtain ⟨c, cs, hcs, hc⟩ := hhead hn
    refine ⟨_, ?_, hvalue, length_filterMap_asciiDigit hdigits⟩
    have hspan := spanDigits_append hdigits hrest
    rw [hcs, List.cons_append] at hspan ⊢
    have hne : (c :: cs).filterMap Number.asciiDigit ≠ [] := fun hnil => by
      have hlength := length_filterMap_asciiDigit (hcs ▸ hdigits)
      rw [hnil] at hlength
      cases hlength
    rw [whole?]
    · rw [hspan]
      split
      · next h => exact absurd (Prod.mk.inj h).1 hne
      · rfl
    · exact fun _ heq => hc (List.cons.inj heq).1

theorem numberChars_toDigits {n : Nat} (hlength : (Nat.toDigits 10 n).length ≤ Number.maxDigits)
    {rest : List Char} (hrest : Ends rest) :
    numberChars (Nat.toDigits 10 n ++ rest) = .ok (.int n, rest) := by
  obtain ⟨digits, hwhole, hvalue, hdigits⟩ := whole?_toDigits n hrest
  have hsign : ∀ cs, Nat.toDigits 10 n ++ rest ≠ '-' :: cs := by
    intro cs heq
    obtain ⟨c, ds, hc⟩ := List.exists_cons_of_ne_nil (Nat.toDigits_ne_nil (n := n) (b := 10))
    have hdigit := (Number.spells_toDigits n).isDigit c (hc ▸ List.mem_cons_self)
    rw [hc, List.cons_append, List.cons.injEq] at heq
    rw [heq.1] at hdigit
    cases hdigit
  unfold numberChars
  split
  next negative start hstart =>
  split at hstart
  · next cs heq => exact absurd heq (hsign cs)
  · obtain ⟨rfl, rfl⟩ := Prod.mk.inj hstart
    simp [hwhole, places_of_ends hrest, exponentMark?_of_ends hrest, hdigits,
      Nat.not_lt.2 hlength, hvalue]

/-! ## Lists and objects -/

mutual
/-- Whether a reader takes in what is written for a value that stands in `depth` others. -/
def isReadable (depth : Nat) : Json → Bool
  | .null | .bool _ | .text _ => true
  | .int n => decide (0 ≤ n) && decide ((Nat.toDigits 10 n.toNat).length ≤ Number.maxDigits)
  | .double _ => false
  | .list items => decide (depth < maxDepth) && areReadable (depth + 1) items
  | .object fields => decide (depth < maxDepth) && decide (Keyed.keys fields).Nodup &&
      haveReadable (depth + 1) fields

def areReadable (depth : Nat) : List Json → Bool
  | [] => true
  | j :: rest => isReadable depth j && areReadable depth rest

def haveReadable (depth : Nat) : List (String × Json) → Bool
  | [] => true
  | (_, j) :: rest => isReadable depth j && haveReadable depth rest
end

/-- The parts of a list or object after the first, and what follows the last of them. -/
def partsAfter (indent : Nat) (parts : List (List Char)) (last : Char) (rest : List Char) :
    List Char :=
  parts.flatMap (fun p => ',' :: (newLine (indent + 1) ++ p)) ++ (newLine indent ++ last :: rest)

theorem quote_append (s : String) (rest : List Char) :
    quote false s ++ rest = '"' :: (s.toList.flatMap (escapeChar false) ++ '"' :: rest) := by
  simp [quote]

theorem block_cons_append (indent : Nat) (first last : Char) (p : List Char)
    (parts : List (List Char)) (rest : List Char) :
    block indent first last (p :: parts) ++ rest =
      first :: (newLine (indent + 1) ++ (p ++ partsAfter indent parts last rest)) := by
  simp [block, commaSeparated_cons, partsAfter, List.flatMap_map]

theorem ends_partsAfter (indent : Nat) (parts : List (List Char)) (last : Char)
    (rest : List Char) : Ends (partsAfter indent parts last rest) := by
  intro c hc
  cases parts with
  | nil => exact .inr (Option.some.inj hc).symm
  | cons p parts => exact .inl (Option.some.inj hc).symm

theorem skipSpace_newLine (indent : Nat) (cs : List Char) :
    skipSpace (newLine indent ++ cs) = skipSpace cs := by
  have hspaces : ∀ c ∈ newLine indent, isSpace c = true := by
    intro c hc
    rcases List.mem_cons.1 hc with rfl | hc
    · rfl
    · rw [List.eq_of_mem_replicate hc]
      rfl
  rw [skipSpace, List.dropWhile_append_of_pos hspaces, skipSpace]

theorem prettyChars_nat (indent n : Nat) :
    prettyChars false indent (.int n) = Nat.toDigits 10 n := by
  have hnat : toString (n : Int) = toString n := rfl
  rw [prettyChars, hnat, Nat.toString_eq_ofList_toDigits, String.toList_ofList]

theorem exists_digit (n : Nat) : ∃ c cs, Nat.toDigits 10 n = c :: cs ∧ isDigit c = true := by
  obtain ⟨c, cs, hcs⟩ := List.exists_cons_of_ne_nil (Nat.toDigits_ne_nil (n := n) (b := 10))
  exact ⟨c, cs, hcs, (Number.spells_toDigits n).isDigit c (hcs ▸ List.mem_cons_self)⟩

/-- What begins a value is neither a space nor a closing bracket nor a mark of byte order. -/
theorem head_prettyChars (indent : Nat) {depth : Nat} {j : Json} (h : isReadable depth j = true) :
    ∃ c cs, prettyChars false indent j = c :: cs ∧ isSpace c = false ∧ c ≠ ']' ∧
      c ≠ '\uFEFF' := by
  cases j with
  | null => exact ⟨'n', _, rfl, rfl, by decide, by decide⟩
  | bool b => cases b <;> exact ⟨_, _, rfl, rfl, by decide, by decide⟩
  | double => cases h
  | text => exact ⟨'"', _, rfl, rfl, by decide, by decide⟩
  | list items => cases items <;> exact ⟨'[', _, rfl, rfl, by decide, by decide⟩
  | object fields => cases fields <;> exact ⟨'\x7b', _, rfl, rfl, by decide, by decide⟩
  | int n =>
    rw [isReadable, Bool.and_eq_true, decide_eq_true_eq] at h
    obtain ⟨n, rfl⟩ := Int.eq_ofNat_of_zero_le h.1
    obtain ⟨c, cs, hcs, hdigit⟩ := exists_digit n
    refine ⟨c, cs, by rw [prettyChars_nat, hcs], ?_, ?_, ?_⟩
    · by_contra hspace
      simp only [isSpace, Bool.not_eq_false, Bool.or_eq_true, beq_iff_eq] at hspace
      rcases hspace with ((rfl | rfl) | rfl) | rfl <;> cases hdigit
    · rintro rfl
      cases hdigit
    · rintro rfl
      cases hdigit

theorem valueChars_digit (fuel depth : Nat) {c : Char} (h : isDigit c = true) (cs : List Char) :
    valueChars (fuel + 1) depth (c :: cs) = numberChars (c :: cs) := by
  unfold valueChars
  split
  case h_10 => rfl
  all_goals
    next heq =>
      rw [(List.cons.inj heq).1] at h
      cases h

theorem skipSpace_of_head {c : Char} (h : isSpace c = false) (cs : List Char) :
    skipSpace (c :: cs) = c :: cs := by
  rw [skipSpace, List.dropWhile_cons_of_neg (by simp [h])]

section Steps

variable {fuel depth : Nat} {j : Json} {cs after rest : List Char}

theorem itemChars_last {acc : List Json} (h : valueChars fuel depth cs = .ok (j, after))
    (hafter : skipSpace after = ']' :: rest) :
    itemChars (fuel + 1) depth acc cs = .ok (.list (acc.reverse ++ [j]), rest) := by
  rw [itemChars, h]
  dsimp only
  rw [hafter, ← List.reverse_cons]
  rfl

theorem itemChars_next {acc : List Json} (h : valueChars fuel depth cs = .ok (j, after))
    (hafter : skipSpace after = ',' :: rest) :
    itemChars (fuel + 1) depth acc cs = itemChars fuel depth (j :: acc) (skipSpace rest) := by
  rw [itemChars, h]
  dsimp only
  rw [hafter]
  rfl

variable {name : String} {acc : List (String × Json)}

/-- What follows a field: the end of its object or another field. -/
def afterField (fuel depth : Nat) (fields : List (String × Json)) :
    List Char → Except Stop (Json × List Char)
  | '\x7d' :: rest => .ok (.object fields, rest)
  | ',' :: rest => fieldChars fuel depth fields (skipSpace rest)
  | rest => .error ⟨.comma, rest.length⟩

/-- The name of a field, its colon and its value. -/
theorem fieldChars_quote (hvalue : valueChars fuel depth (skipSpace cs) = .ok (j, after)) :
    fieldChars (fuel + 1) depth acc (quote false name ++ ':' :: cs) =
      afterField fuel depth (withField acc name j) (skipSpace after) := by
  rw [quote_append, fieldChars, textChars_quote]
  dsimp only
  rw [skipSpace_of_head rfl]
  simp only [hvalue]
  rfl

theorem fieldChars_last (hvalue : valueChars fuel depth (skipSpace cs) = .ok (j, after))
    (hafter : skipSpace after = '\x7d' :: rest) :
    fieldChars (fuel + 1) depth acc (quote false name ++ ':' :: cs) =
      .ok (.object (withField acc name j), rest) := by
  rw [fieldChars_quote hvalue, hafter]
  rfl

theorem fieldChars_next (hvalue : valueChars fuel depth (skipSpace cs) = .ok (j, after))
    (hafter : skipSpace after = ',' :: rest) :
    fieldChars (fuel + 1) depth acc (quote false name ++ ':' :: cs) =
      fieldChars fuel depth (withField acc name j) (skipSpace rest) := by
  rw [fieldChars_quote hvalue, hafter]
  rfl

end Steps

theorem skipSpace_partsAfter_nil (indent : Nat) {last : Char} (hlast : isSpace last = false)
    (rest : List Char) : skipSpace (partsAfter indent [] last rest) = last :: rest := by
  rw [partsAfter, List.flatMap_nil, List.nil_append, skipSpace_newLine, skipSpace_of_head hlast]

theorem skipSpace_partsAfter_cons (indent : Nat) (p : List Char) (parts : List (List Char))
    (last : Char) (rest : List Char) : skipSpace (partsAfter indent (p :: parts) last rest) =
      ',' :: (newLine (indent + 1) ++ (p ++ partsAfter indent parts last rest)) := by
  rw [partsAfter, List.flatMap_cons, List.cons_append, List.cons_append, skipSpace_of_head rfl,
    partsAfter]
  simp only [List.append_assoc]

/-- The characters of the parts after the first. -/
def lengthAfter (indent : Nat) (parts : List (List Char)) : Nat :=
  (parts.flatMap fun p => ',' :: (newLine (indent + 1) ++ p)).length

theorem lengthAfter_cons (indent : Nat) (p : List Char) (parts : List (List Char)) :
    p.length + lengthAfter indent parts < lengthAfter indent (p :: parts) := by
  simp only [lengthAfter, List.flatMap_cons, List.length_append, List.length_cons]
  omega

theorem lengthAfter_lt_block (indent : Nat) (first last : Char) (p : List Char)
    (parts : List (List Char)) :
    p.length + lengthAfter indent parts + 1 < (block indent first last (p :: parts)).length := by
  have happend := congrArg List.length (block_cons_append indent first last p parts [])
  simp only [partsAfter, List.append_nil, List.length_append, List.length_cons,
    List.length_nil] at happend
  rw [happend, lengthAfter]
  omega

mutual
/-- What is written for a value is read as the value, and what follows is left. -/
theorem valueChars_pretty {j : Json} {depth : Nat} (indent fuel : Nat) {rest : List Char}
    (hj : isReadable depth j = true) (hfuel : (prettyChars false indent j).length ≤ fuel)
    (hrest : Ends rest) :
    valueChars fuel depth (prettyChars false indent j ++ rest) = .ok (j, rest) := by
  obtain ⟨c, cs, hcs, -⟩ := head_prettyChars indent hj
  obtain ⟨fuel, rfl⟩ : ∃ n, fuel = n + 1 :=
    Nat.exists_eq_succ_of_ne_zero (by rw [hcs] at hfuel; simp at hfuel; omega)
  cases j with
  | null => rfl
  | bool b => cases b <;> rfl
  | double => cases hj
  | int n =>
    rw [isReadable, Bool.and_eq_true, decide_eq_true_eq, decide_eq_true_eq] at hj
    obtain ⟨n, rfl⟩ := Int.eq_ofNat_of_zero_le hj.1
    obtain ⟨d, ds, hds, hdigit⟩ := exists_digit n
    rw [prettyChars_nat, hds, List.cons_append, valueChars_digit fuel depth hdigit,
      ← List.cons_append, ← hds]
    exact numberChars_toDigits hj.2 hrest
  | text s =>
    rw [prettyChars, quote, List.append_assoc, List.cons_append, valueChars, List.singleton_append,
      textChars_quote]
    rfl
  | list items =>
    cases items with
    | nil =>
      rw [isReadable, Bool.and_eq_true, decide_eq_true_eq] at hj
      have htext : prettyChars false indent (.list []) = ['[', ']'] := rfl
      rw [htext, List.cons_append, valueChars, if_neg (Nat.not_le.2 hj.1)]
      rfl
    | cons j items =>
      rw [isReadable, Bool.and_eq_true, decide_eq_true_eq] at hj
      rw [prettyChars, prettyItems] at hfuel
      have hblock := Nat.lt_of_lt_of_le (lengthAfter_lt_block ..) hfuel
      obtain ⟨d, ds, hd, hspace, hclose, -⟩ :=
        head_prettyChars (indent + 1) (Bool.and_eq_true_iff.1 hj.2).1
      have hitems := itemChars_pretty [] indent fuel rest hj.2 (by omega)
      rw [hd, List.cons_append] at hitems
      rw [prettyChars, prettyItems, block_cons_append, valueChars, if_neg (Nat.not_le.2 hj.1),
        skipSpace_newLine, hd, List.cons_append, skipSpace_of_head hspace]
      split
      · next heq => exact absurd (List.cons.inj heq).1 hclose
      · exact hitems
  | object fields =>
    cases fields with
    | nil =>
      rw [isReadable, Bool.and_eq_true, Bool.and_eq_true, decide_eq_true_eq] at hj
      have htext : prettyChars false indent (.object []) = ['\x7b', '\x7d'] := rfl
      rw [htext, List.cons_append, valueChars, if_neg (Nat.not_le.2 hj.1.1)]
      rfl
    | cons field fields =>
      obtain ⟨name, j⟩ := field
      rw [isReadable, Bool.and_eq_true, Bool.and_eq_true, decide_eq_true_eq,
        decide_eq_true_eq] at hj
      rw [prettyChars, prettyFields] at hfuel
      have hblock := Nat.lt_of_lt_of_le (lengthAfter_lt_block ..) hfuel
      have hfields := fieldChars_pretty [] indent fuel rest hj.2 hj.1.2 (by omega)
      rw [List.nil_append] at hfields
      rw [prettyChars, prettyFields, block_cons_append, valueChars, if_neg (Nat.not_le.2 hj.1.1),
        skipSpace_newLine, List.append_assoc, quote_append, skipSpace_of_head rfl, ← quote_append,
        ← List.append_assoc]
      exact hfields
termination_by fuel

/-- The items from the one that is being read. -/
theorem itemChars_pretty {j : Json} {items : List Json} {depth : Nat} (acc : List Json)
    (indent fuel : Nat) (rest : List Char) (hj : areReadable depth (j :: items) = true)
    (hfuel : (prettyChars false (indent + 1) j).length +
      lengthAfter indent (prettyItems false (indent + 1) items) < fuel) :
    itemChars fuel depth acc (prettyChars false (indent + 1) j ++
        partsAfter indent (prettyItems false (indent + 1) items) ']' rest) =
      .ok (.list (acc.reverse ++ j :: items), rest) := by
  obtain ⟨fuel, rfl⟩ := Nat.exists_eq_succ_of_ne_zero (Nat.ne_of_gt (Nat.zero_lt_of_lt hfuel))
  rw [areReadable, Bool.and_eq_true] at hj
  have hvalue := valueChars_pretty (indent + 1) fuel hj.1 (by omega)
    (ends_partsAfter indent (prettyItems false (indent + 1) items) ']' rest)
  cases items with
  | nil => exact itemChars_last hvalue (skipSpace_partsAfter_nil indent rfl rest)
  | cons k items =>
    have hlength := lengthAfter_cons indent (prettyChars false (indent + 1) k)
      (prettyItems false (indent + 1) items)
    rw [prettyItems] at hfuel hvalue ⊢
    have hitems := itemChars_pretty (j :: acc) indent fuel rest hj.2 (by omega)
    obtain ⟨d, ds, hd, hspace, -⟩ :=
      head_prettyChars (indent + 1) (Bool.and_eq_true_iff.1 hj.2).1
    rw [itemChars_next hvalue (skipSpace_partsAfter_cons ..), skipSpace_newLine, hd,
      List.cons_append, skipSpace_of_head hspace, ← List.cons_append, ← hd, hitems,
      List.reverse_cons, List.append_assoc, List.singleton_append]
termination_by fuel

/-- The fields from the one that is being read, after others with other names. -/
theorem fieldChars_pretty {name : String} {j : Json} {fields : List (String × Json)} {depth : Nat}
    (acc : List (String × Json)) (indent fuel : Nat) (rest : List Char)
    (hj : haveReadable depth ((name, j) :: fields) = true)
    (hnames : (Keyed.keys (acc ++ (name, j) :: fields)).Nodup)
    (hfuel : (quote false name ++ ':' :: ' ' :: prettyChars false (indent + 1) j).length +
      lengthAfter indent (prettyFields false (indent + 1) fields) < fuel) :
    fieldChars fuel depth acc (quote false name ++ ':' :: ' ' :: prettyChars false (indent + 1) j ++
        partsAfter indent (prettyFields false (indent + 1) fields) '\x7d' rest) =
      .ok (.object (acc ++ (name, j) :: fields), rest) := by
  obtain ⟨fuel, rfl⟩ := Nat.exists_eq_succ_of_ne_zero (Nat.ne_of_gt (Nat.zero_lt_of_lt hfuel))
  rw [haveReadable, Bool.and_eq_true] at hj
  obtain ⟨c, cs, hc, hspace, -⟩ := head_prettyChars (indent + 1) hj.1
  have hvalue := valueChars_pretty (indent + 1) fuel hj.1
    (by simp at hfuel; omega)
    (ends_partsAfter indent (prettyFields false (indent + 1) fields) '\x7d' rest)
  have hnew : withField acc name j = acc ++ [(name, j)] := by
    refine Keyed.set_of_not_mem (fun hmem => ?_) j
    rw [Keyed.keys, List.map_append, List.nodup_append] at hnames
    exact hnames.2.2 name hmem name List.mem_cons_self rfl
  have hskip : skipSpace (' ' :: prettyChars false (indent + 1) j ++
      partsAfter indent (prettyFields false (indent + 1) fields) '\x7d' rest) =
        prettyChars false (indent + 1) j ++
          partsAfter indent (prettyFields false (indent + 1) fields) '\x7d' rest := by
    rw [hc, List.cons_append, List.cons_append]
    exact skipSpace_of_head hspace _
  rw [← hskip] at hvalue
  rw [List.append_assoc, List.cons_append]
  cases fields with
  | nil => rw [fieldChars_last hvalue (skipSpace_partsAfter_nil indent rfl rest), hnew]
  | cons field fields =>
    obtain ⟨name', k⟩ := field
    have hlength := lengthAfter_cons indent
      (quote false name' ++ ':' :: ' ' :: prettyChars false (indent + 1) k)
      (prettyFields false (indent + 1) fields)
    rw [prettyFields] at hfuel hvalue ⊢
    have hsame : acc ++ (name, j) :: (name', k) :: fields =
        acc ++ [(name, j)] ++ (name', k) :: fields := by simp
    rw [hsame] at hnames
    have hfields := fieldChars_pretty _ indent fuel rest hj.2 hnames (by omega)
    rw [fieldChars_next hvalue (skipSpace_partsAfter_cons ..), hnew, skipSpace_newLine,
      List.append_assoc, quote_append, skipSpace_of_head rfl, ← quote_append, ← List.append_assoc,
      hfields, hsame]
termination_by fuel
end

/-! ## Whole texts -/

theorem return_not_mem_escapeChar (c : Char) : '\r' ∉ escapeChar false c := by
  by_cases hspecial : c ∈ specialChars
  · have hall : ∀ c ∈ specialChars, '\r' ∉ escapeChar false c :=
      List.all_iff_forall_prop.1 (by decide +kernel)
    exact hall c hspecial
  · rcases escapeChar_cases c with ⟨h, -⟩ | ⟨-, -, hplain⟩
    · exact absurd h hspecial
    · rw [hplain, List.mem_singleton]
      rintro rfl
      exact hspecial (by decide)

theorem return_not_mem_quote (s : String) : '\r' ∉ quote false s := by
  simp [quote, return_not_mem_escapeChar]

theorem return_not_mem_block {indent : Nat} {first last : Char} {parts : List (List Char)}
    (hfirst : first ≠ '\r') (hlast : last ≠ '\r') (h : ∀ p ∈ parts, '\r' ∉ p) :
    '\r' ∉ block indent first last parts := by
  have hline : ∀ n, '\r' ∉ newLine n := by simp [newLine]
  cases parts with
  | nil => simp [block, hfirst.symm, hlast.symm]
  | cons p parts =>
    rw [List.forall_mem_cons] at h
    rw [← List.append_nil (block ..), block_cons_append, partsAfter]
    simpa [hline, hfirst.symm, hlast.symm, h.1] using h.2

mutual
theorem return_not_mem_prettyChars {j : Json} {depth : Nat} (h : isReadable depth j = true)
    (indent : Nat) : '\r' ∉ prettyChars false indent j := by
  cases j with
  | null => simp [prettyChars]
  | bool b =>
    rw [prettyChars]
    cases b <;> decide
  | double => cases h
  | int n =>
    rw [isReadable, Bool.and_eq_true, decide_eq_true_eq] at h
    obtain ⟨n, rfl⟩ := Int.eq_ofNat_of_zero_le h.1
    rw [prettyChars_nat]
    intro hmem
    have hdigit := (Number.spells_toDigits n).isDigit _ hmem
    cases hdigit
  | text s => exact return_not_mem_quote s
  | list items =>
    rw [isReadable, Bool.and_eq_true] at h
    exact return_not_mem_block (by decide) (by decide) (return_not_mem_prettyItems h.2 _)
  | object fields =>
    rw [isReadable, Bool.and_eq_true] at h
    exact return_not_mem_block (by decide) (by decide) (return_not_mem_prettyFields h.2 _)

theorem return_not_mem_prettyItems {items : List Json} {depth : Nat}
    (h : areReadable depth items = true) (indent : Nat) :
    ∀ p ∈ prettyItems false indent items, '\r' ∉ p := by
  cases items with
  | nil => simp [prettyItems]
  | cons j items =>
    rw [areReadable, Bool.and_eq_true] at h
    rw [prettyItems, List.forall_mem_cons]
    exact ⟨return_not_mem_prettyChars h.1 indent, return_not_mem_prettyItems h.2 indent⟩

theorem return_not_mem_prettyFields {fields : List (String × Json)} {depth : Nat}
    (h : haveReadable depth fields = true) (indent : Nat) :
    ∀ p ∈ prettyFields false indent fields, '\r' ∉ p := by
  cases fields with
  | nil => simp [prettyFields]
  | cons field fields =>
    obtain ⟨name, j⟩ := field
    rw [haveReadable, Bool.and_eq_true] at h
    rw [prettyFields, List.forall_mem_cons]
    refine ⟨?_, return_not_mem_prettyFields h.2 indent⟩
    simp [return_not_mem_quote, return_not_mem_prettyChars h.1 indent]
end

/-- A value that is not too large reads back from its indented text. -/
theorem read_pretty {j : Json} (h : isReadable 0 j = true) : read (j.pretty false) = .ok j := by
  obtain ⟨c, cs, hcs, hspace, -, hmark⟩ := head_prettyChars 0 h
  have hvalue : valueChars (2 * (prettyChars false 0 j).length + 2) 0
      (prettyChars false 0 j ++ []) = .ok (j, []) :=
    valueChars_pretty 0 _ h (by omega) (by simp [Ends])
  rw [List.append_nil] at hvalue
  have hskip : skipSpace (prettyChars false 0 j) = prettyChars false 0 j := by
    rw [hcs, skipSpace_of_head hspace]
  have hdocument : document (prettyChars false 0 j) = .ok j := by
    rw [document, if_neg (by simp [hcs, hmark]), hskip, hvalue]
    rfl
  rw [read, pretty, String.toList_ofList, hdocument]
  rfl

end Deadwood.Json
