import Deadwood.Text.Utf8
import Mathlib.Data.List.Basic
import Mathlib.Tactic.SplitIfs

/-!
Reading and writing UTF-8. Bytes are text exactly if they are the written form of some text
(`isValid_iff`), so text may be joined, and cut at every place before which text stands; next to an
ASCII byte there is always such a place.
-/
namespace Deadwood.Utf8

theorem tails_cons {n : Nat} {low high b : UInt8} {rest : Bytes} (h : low ≤ b ∧ b ≤ high) :
    tails (n + 1) low high (b :: rest) = b :: tails n 0x80 0xBF rest := by
  simp [tails, h]

theorem tails_eq_take (n : Nat) (low high : UInt8) (bytes : Bytes) :
    tails n low high bytes = bytes.take (tails n low high bytes).length := by
  induction n generalizing low high bytes with
  | zero => simp [tails]
  | succ n ih =>
    cases bytes with
    | nil => simp [tails]
    | cons b rest =>
      unfold tails
      split
      · simpa using ih 0x80 0xBF rest
      · simp

theorem tails_eq_cons {n : Nat} {low high : UInt8} {bytes : Bytes}
    (h : (tails (n + 1) low high bytes).length = n + 1) :
    ∃ b rest, bytes = b :: rest ∧ low ≤ b ∧ b ≤ high ∧
      tails (n + 1) low high bytes = b :: tails n 0x80 0xBF rest ∧
      (tails n 0x80 0xBF rest).length = n := by
  cases bytes with
  | nil => simp [tails] at h
  | cons b rest =>
    by_cases hb : low ≤ b ∧ b ≤ high
    · rw [tails_cons hb] at h ⊢
      exact ⟨b, rest, rfl, hb.1, hb.2, rfl, by simpa using h⟩
    · simp [tails, hb] at h

theorem toNat_ofNat_of_lt {n : Nat} (h : n < 256) : (UInt8.ofNat n).toNat = n := by
  rw [UInt8.toNat_ofNat']
  exact Nat.mod_eq_of_lt h

theorem toNat_ofNat_char {n : Nat} (h : n.isValidChar) : (Char.ofNat n).val.toNat = n := by
  rw [Char.ofNat, dif_pos h]
  rfl

/-- The written form by the size of the character. -/
theorem encodeChar_cases (c : Char) :
    (∃ b : UInt8, String.utf8EncodeChar c = [b] ∧ b.toNat = c.val.toNat ∧ b.toNat < 0x80) ∨
    (∃ b x : UInt8, String.utf8EncodeChar c = [b, x] ∧ 0x80 ≤ c.val.toNat ∧ c.val.toNat < 0x800 ∧
      b.toNat = 0xC0 + c.val.toNat / 64 ∧ x.toNat = 0x80 + c.val.toNat % 64) ∨
    (∃ b x y : UInt8, String.utf8EncodeChar c = [b, x, y] ∧
      0x800 ≤ c.val.toNat ∧ c.val.toNat < 0x10000 ∧ b.toNat = 0xE0 + c.val.toNat / 4096 ∧
      x.toNat = 0x80 + c.val.toNat / 64 % 64 ∧ y.toNat = 0x80 + c.val.toNat % 64) ∨
    (∃ b x y z : UInt8, String.utf8EncodeChar c = [b, x, y, z] ∧
      0x10000 ≤ c.val.toNat ∧ c.val.toNat < 0x110000 ∧ b.toNat = 0xF0 + c.val.toNat / 262144 ∧
      x.toNat = 0x80 + c.val.toNat / 4096 % 64 ∧ y.toNat = 0x80 + c.val.toNat / 64 % 64 ∧
      z.toNat = 0x80 + c.val.toNat % 64) := by
  have hmax : c.val.toNat < 0x110000 := by
    have h := c.valid
    simp only [UInt32.isValidChar, Nat.isValidChar] at h
    omega
  unfold String.utf8EncodeChar
  generalize c.val.toNat = v at hmax
  dsimp only
  split_ifs with h1 h2 h3
  · left
    exact ⟨_, rfl, toNat_ofNat_of_lt (by omega), by rw [toNat_ofNat_of_lt] <;> omega⟩
  · right; left
    refine ⟨_, _, rfl, by omega, by omega, ?_, ?_⟩ <;> rw [toNat_ofNat_of_lt] <;> omega
  · right; right; left
    refine ⟨_, _, _, rfl, by omega, by omega, ?_, ?_, ?_⟩ <;> rw [toNat_ofNat_of_lt] <;> omega
  · right; right; right
    refine ⟨_, _, _, _, rfl, by omega, by omega, ?_, ?_, ?_, ?_⟩ <;>
      rw [toNat_ofNat_of_lt] <;> omega

/-- The least first tail after a lead byte of three or four. -/
def lowTail (b : UInt8) : UInt8 := if b = 0xE0 then 0xA0 else if b = 0xF0 then 0x90 else 0x80

/-- The greatest first tail after a lead byte of three or four. -/
def highTail (b : UInt8) : UInt8 := if b = 0xED then 0x9F else if b = 0xF4 then 0x8F else 0xBF

theorem lead?_eq (b : UInt8) : lead? b =
    if b.toNat < 0x80 then some ⟨b.toNat, 0, 0x80, 0xBF⟩
    else if b.toNat < 0xC2 then none
    else if b.toNat < 0xE0 then some ⟨b.toNat - 0xC0, 1, 0x80, 0xBF⟩
    else if b.toNat < 0xF0 then some ⟨b.toNat - 0xE0, 2, lowTail b, highTail b⟩
    else if b.toNat < 0xF5 then some ⟨b.toNat - 0xF0, 3, lowTail b, highTail b⟩
    else none := by
  have h3 (h : b.toNat < 0xF0) : b ≠ 0xF0 ∧ b ≠ 0xF4 := by
    constructor <;> rintro rfl <;> exact absurd h (by decide)
  have h4 (h : ¬ b.toNat < 0xF0) : b ≠ 0xE0 ∧ b ≠ 0xED := by
    constructor <;> rintro rfl <;> exact h (by decide)
  unfold lead? lowTail highTail
  simp only [UInt8.lt_iff_toNat_lt, UInt8.toNat_ofNat, Nat.reducePow, Nat.reduceMod]
  by_cases h : b.toNat < 0xF0
  · simp only [if_pos h, if_neg (h3 h).1, if_neg (h3 h).2]
  · simp only [if_neg h, if_neg (h4 h).1, if_neg (h4 h).2]

theorem toNat_lowTail (b : UInt8) :
    (lowTail b).toNat = if b.toNat = 0xE0 then 0xA0 else if b.toNat = 0xF0 then 0x90 else 0x80 := by
  unfold lowTail
  simp only [← UInt8.toNat_inj, apply_ite UInt8.toNat, UInt8.toNat_ofNat, Nat.reducePow,
    Nat.reduceMod]

theorem toNat_highTail (b : UInt8) :
    (highTail b).toNat =
      if b.toNat = 0xED then 0x9F else if b.toNat = 0xF4 then 0x8F else 0xBF := by
  unfold highTail
  simp only [← UInt8.toNat_inj, apply_ite UInt8.toNat, UInt8.toNat_ofNat, Nat.reducePow,
    Nat.reduceMod]

theorem step_of_lead? {b : UInt8} {rest : Bytes} {lead : Lead} (h : lead? b = some lead)
    (hn : (tails lead.tails lead.low lead.high rest).length = lead.tails) :
    step b rest =
      .char (scalar lead.bits (tails lead.tails lead.low lead.high rest)) (1 + lead.tails) := by
  simp [step, h, hn]

theorem scalar_eq (bits : Nat) (found : Bytes) (c : Char)
    (h : found.foldl (fun n b => 64 * n + (b.toNat - 0x80)) bits = c.val.toNat) :
    scalar bits found = c := by
  rw [scalar, h]
  exact Char.ofNat_toNat c

/-- A written character is read back, whatever follows it. -/
theorem step_encodeChar (c : Char) {b : UInt8} {bs : Bytes} (rest : Bytes)
    (h : String.utf8EncodeChar c = b :: bs) : step b (bs ++ rest) = .char c (1 + bs.length) := by
  have hc := c.valid
  simp only [UInt32.isValidChar, Nat.isValidChar] at hc
  -- One case for each width; the lead byte says which branch the reader takes.
  rcases encodeChar_cases c with ⟨b', h', hb, hlt⟩ | ⟨b', x, h', h1, h2, hb, hx⟩ |
      ⟨b', x, y, h', h1, h2, hb, hx, hy⟩ | ⟨b', x, y, z, h', h1, h2, hb, hx, hy, hz⟩ <;>
    rw [h, List.cons.injEq] at h' <;> obtain ⟨rfl, rfl⟩ := h' <;> have hl := lead?_eq b
  · rw [if_pos hlt] at hl
    rw [step_of_lead? hl rfl, scalar_eq _ _ c (by simpa [tails] using hb)]
    rfl
  · rw [if_neg (by omega), if_neg (by omega), if_pos (by omega)] at hl
    have ht : tails 1 0x80 0xBF ([x] ++ rest) = [x] := by
      rw [List.singleton_append, tails_cons]
      · rfl
      · simp only [UInt8.le_iff_toNat_le, UInt8.toNat_ofNat, Nat.reducePow, Nat.reduceMod]
        omega
    rw [step_of_lead? hl (by simp only [ht]; rfl), ht, scalar_eq _ _ c]
    · rfl
    · simp only [List.foldl_cons, List.foldl_nil]
      omega
  · have hlow := toNat_lowTail b
    have hhigh := toNat_highTail b
    rw [if_neg (by omega), if_neg (by omega), if_neg (by omega), if_pos (by omega)] at hl
    have ht : tails 2 (lowTail b) (highTail b) ([x, y] ++ rest) = [x, y] := by
      rw [List.cons_append, tails_cons, List.cons_append, tails_cons]
      · rfl
      · simp only [UInt8.le_iff_toNat_le, UInt8.toNat_ofNat, Nat.reducePow, Nat.reduceMod]
        omega
      · simp only [UInt8.le_iff_toNat_le]
        split_ifs at hlow hhigh <;> omega
    rw [step_of_lead? hl (by simp only [ht]; rfl), ht, scalar_eq _ _ c]
    · rfl
    · simp only [List.foldl_cons, List.foldl_nil]
      omega
  · have hlow := toNat_lowTail b
    have hhigh := toNat_highTail b
    rw [if_neg (by omega), if_neg (by omega), if_neg (by omega), if_neg (by omega),
      if_pos (by omega)] at hl
    have ht : tails 3 (lowTail b) (highTail b) ([x, y, z] ++ rest) = [x, y, z] := by
      rw [List.cons_append, tails_cons, List.cons_append, tails_cons, List.cons_append, tails_cons]
      · rfl
      · simp only [UInt8.le_iff_toNat_le, UInt8.toNat_ofNat, Nat.reducePow, Nat.reduceMod]
        omega
      · simp only [UInt8.le_iff_toNat_le, UInt8.toNat_ofNat, Nat.reducePow, Nat.reduceMod]
        omega
      · simp only [UInt8.le_iff_toNat_le]
        split_ifs at hlow hhigh <;> omega
    rw [step_of_lead? hl (by simp only [ht]; rfl), ht, scalar_eq _ _ c]
    · rfl
    · simp only [List.foldl_cons, List.foldl_nil]
      omega

theorem encodeChar_one {b : UInt8} (hb : b.toNat < 0x80) :
    String.utf8EncodeChar (scalar b.toNat []) = [b] := by
  have hc := encodeChar_cases (Char.ofNat b.toNat)
  rw [toNat_ofNat_char (.inl (by omega))] at hc
  rcases hc with ⟨b', hc, hb', -⟩ | ⟨_, _, _, _, _⟩ | ⟨_, _, _, _, _, _⟩ |
    ⟨_, _, _, _, _, _, _⟩ <;> try omega
  have h : b' = b := UInt8.toNat_inj.1 hb'
  rw [scalar, List.foldl_nil, hc, h]

theorem encodeChar_two {b x : UInt8} (hb : 0xC2 ≤ b.toNat) (hb' : b.toNat < 0xE0)
    (hx : 0x80 ≤ x.toNat) (hx' : x.toNat ≤ 0xBF) :
    String.utf8EncodeChar (scalar (b.toNat - 0xC0) [x]) = [b, x] := by
  simp only [scalar, List.foldl_cons, List.foldl_nil]
  have hc := encodeChar_cases (Char.ofNat (64 * (b.toNat - 0xC0) + (x.toNat - 0x80)))
  rw [toNat_ofNat_char (.inl (by omega))] at hc
  rcases hc with ⟨_, _, _⟩ | ⟨b', x', hc, -, -, eb, ex⟩ | ⟨_, _, _, _, _, _⟩ |
    ⟨_, _, _, _, _, _, _⟩ <;> try omega
  have h1 : b' = b := UInt8.toNat_inj.1 (by omega)
  have h2 : x' = x := UInt8.toNat_inj.1 (by omega)
  rw [hc, h1, h2]

theorem encodeChar_three {b x y : UInt8} (hb : 0xE0 ≤ b.toNat) (hb' : b.toNat < 0xF0)
    (hx : (lowTail b).toNat ≤ x.toNat) (hx' : x.toNat ≤ (highTail b).toNat)
    (hy : 0x80 ≤ y.toNat) (hy' : y.toNat ≤ 0xBF) :
    String.utf8EncodeChar (scalar (b.toNat - 0xE0) [x, y]) = [b, x, y] := by
  rw [toNat_lowTail] at hx
  rw [toNat_highTail] at hx'
  -- The bounds of the first tail leave out longer forms than needed and surrogates.
  have hr : 0x80 ≤ x.toNat ∧ x.toNat ≤ 0xBF ∧ (b.toNat = 0xE0 → 0xA0 ≤ x.toNat) ∧
      (b.toNat = 0xED → x.toNat ≤ 0x9F) := by
    split_ifs at hx hx' <;> omega
  simp only [scalar, List.foldl_cons, List.foldl_nil]
  have hc := encodeChar_cases
    (Char.ofNat (64 * (64 * (b.toNat - 0xE0) + (x.toNat - 0x80)) + (y.toNat - 0x80)))
  rw [toNat_ofNat_char (by unfold Nat.isValidChar; omega)] at hc
  rcases hc with ⟨_, _, _⟩ | ⟨_, _, _, _, _⟩ | ⟨b', x', y', hc, -, -, eb, ex, ey⟩ |
    ⟨_, _, _, _, _, _, _⟩ <;> try omega
  have h1 : b' = b := UInt8.toNat_inj.1 (by omega)
  have h2 : x' = x := UInt8.toNat_inj.1 (by omega)
  have h3 : y' = y := UInt8.toNat_inj.1 (by omega)
  rw [hc, h1, h2, h3]

theorem encodeChar_four {b x y z : UInt8} (hb : 0xF0 ≤ b.toNat) (hb' : b.toNat < 0xF5)
    (hx : (lowTail b).toNat ≤ x.toNat) (hx' : x.toNat ≤ (highTail b).toNat)
    (hy : 0x80 ≤ y.toNat) (hy' : y.toNat ≤ 0xBF) (hz : 0x80 ≤ z.toNat) (hz' : z.toNat ≤ 0xBF) :
    String.utf8EncodeChar (scalar (b.toNat - 0xF0) [x, y, z]) = [b, x, y, z] := by
  rw [toNat_lowTail] at hx
  rw [toNat_highTail] at hx'
  -- Here they leave out longer forms and what lies past the last code point.
  have hr : 0x80 ≤ x.toNat ∧ x.toNat ≤ 0xBF ∧ (b.toNat = 0xF0 → 0x90 ≤ x.toNat) ∧
      (b.toNat = 0xF4 → x.toNat ≤ 0x8F) := by
    split_ifs at hx hx' <;> omega
  simp only [scalar, List.foldl_cons, List.foldl_nil]
  have hc := encodeChar_cases (Char.ofNat (64 * (64 * (64 * (b.toNat - 0xF0) +
    (x.toNat - 0x80)) + (y.toNat - 0x80)) + (z.toNat - 0x80)))
  rw [toNat_ofNat_char (.inr ⟨by omega, by omega⟩)] at hc
  rcases hc with ⟨_, _, _⟩ | ⟨_, _, _, _, _⟩ | ⟨_, _, _, _, _, _⟩ |
    ⟨b', x', y', z', hc, -, -, eb, ex, ey, ez⟩ <;> try omega
  have h1 : b' = b := UInt8.toNat_inj.1 (by omega)
  have h2 : x' = x := UInt8.toNat_inj.1 (by omega)
  have h3 : y' = y := UInt8.toNat_inj.1 (by omega)
  have h4 : z' = z := UInt8.toNat_inj.1 (by omega)
  rw [hc, h1, h2, h3, h4]

theorem encodeChar_tails {b : UInt8} {rest : Bytes} {lead : Lead} (h : lead? b = some lead)
    (hn : (tails lead.tails lead.low lead.high rest).length = lead.tails) :
    String.utf8EncodeChar (scalar lead.bits (tails lead.tails lead.low lead.high rest)) =
      b :: tails lead.tails lead.low lead.high rest := by
  rw [lead?_eq] at h
  split_ifs at h with h1 h2 h3 h4 h5 <;> simp only [Option.some.injEq] at h <;> subst h
  · exact encodeChar_one h1
  · obtain ⟨x, rest, rfl, hx, hx', ht, -⟩ := tails_eq_cons hn
    rw [ht]
    exact encodeChar_two (by omega) h3 hx hx'
  · obtain ⟨x, rest, rfl, hx, hx', ht, hn'⟩ := tails_eq_cons hn
    obtain ⟨y, rest, rfl, hy, hy', ht', -⟩ := tails_eq_cons hn'
    rw [ht, ht']
    exact encodeChar_three (by omega) h4 hx hx' hy hy'
  · obtain ⟨x, rest, rfl, hx, hx', ht, hn'⟩ := tails_eq_cons hn
    obtain ⟨y, rest, rfl, hy, hy', ht', hn''⟩ := tails_eq_cons hn'
    obtain ⟨z, rest, rfl, hz, hz', ht'', -⟩ := tails_eq_cons hn''
    rw [ht, ht', ht'']
    exact encodeChar_four (by omega) h5 hx hx' hy hy' hz hz'

/-- A character that is read is the one whose written form was read. -/
theorem encodeChar_of_step {b : UInt8} {rest : Bytes} {c : Char} {w : Nat}
    (h : step b rest = .char c w) :
    ∃ bs more, rest = bs ++ more ∧ String.utf8EncodeChar c = b :: bs ∧ w = 1 + bs.length := by
  cases hlead : lead? b with
  | none => simp [step, hlead] at h
  | some lead =>
    have hn : (tails lead.tails lead.low lead.high rest).length = lead.tails := by
      by_contra hn
      simp only [step, hlead, hn, if_false] at h
      split at h <;> cases h
    rw [step_of_lead? hlead hn, Step.char.injEq] at h
    obtain ⟨rfl, rfl⟩ := h
    refine ⟨tails lead.tails lead.low lead.high rest, rest.drop lead.tails, ?_,
      encodeChar_tails hlead hn, by rw [hn]⟩
    conv_lhs => rw [← List.take_append_drop lead.tails rest]
    rw [tails_eq_take, hn]

theorem steps_skip (offset skip : Nat) (bytes : Bytes) :
    steps offset skip bytes = steps (offset + skip) 0 (bytes.drop skip) := by
  induction bytes generalizing offset skip with
  | nil => simp [steps]
  | cons b rest ih =>
    cases skip with
    | zero => rfl
    | succ k =>
      rw [steps, ih, List.drop_succ_cons]
      congr 1
      omega

theorem steps_encodeChar (offset : Nat) (c : Char) (rest : Bytes) :
    ∃ b w, steps offset 0 (String.utf8EncodeChar c ++ rest) =
      (offset, b, .char c w) :: steps (offset + w) 0 rest := by
  cases h : String.utf8EncodeChar c with
  | nil => exact absurd h String.utf8EncodeChar_ne_nil
  | cons b bs =>
    refine ⟨b, 1 + bs.length, ?_⟩
    rw [List.cons_append, steps, step_encodeChar c rest h, steps_skip]
    simp [Step.width, Nat.add_assoc]

theorem decodeSteps_encode (offset : Nat) (cs : List Char) :
    decodeSteps (steps offset 0 (cs.flatMap String.utf8EncodeChar)) = .ok cs := by
  induction cs generalizing offset with
  | nil => rfl
  | cons c cs ih =>
    obtain ⟨b, w, h⟩ := steps_encodeChar offset c (cs.flatMap String.utf8EncodeChar)
    rw [List.flatMap_cons, h, decodeSteps, ih]
    rfl

theorem decode_encode (text : String) : decode (encode text) = .ok text := by
  rw [decode, encode, decodeSteps_encode]
  simp [Except.map]

theorem eq_encode_of_decodeSteps {offset : Nat} {bytes : Bytes} {cs : List Char}
    (h : decodeSteps (steps offset 0 bytes) = .ok cs) :
    bytes = cs.flatMap String.utf8EncodeChar := by
  -- A step takes several bytes, so the induction is on how many are left.
  induction hn : bytes.length using Nat.strongRecOn generalizing offset bytes cs with
  | ind n ih =>
    cases bytes with
    | nil =>
      simp only [steps, decodeSteps, Except.ok.injEq] at h
      subst h
      rfl
    | cons b rest =>
      rw [steps] at h
      cases hs : step b rest with
      | fault defect w => simp [hs, decodeSteps] at h
      | char c w =>
        obtain ⟨bs, more, rfl, hc, rfl⟩ := encodeChar_of_step hs
        rw [hs, decodeSteps, steps_skip] at h
        cases hr : decodeSteps (steps (offset + 1 + ((Step.char c (1 + bs.length)).width - 1)) 0
            ((bs ++ more).drop ((Step.char c (1 + bs.length)).width - 1))) with
        | error e => simp [hr, Except.map] at h
        | ok cs' =>
          simp only [hr, Except.map, Except.ok.injEq] at h
          subst h
          have hdrop : (bs ++ more).drop ((Step.char c (1 + bs.length)).width - 1) = more := by
            simp [Step.width]
          rw [hdrop] at hr
          have := ih more.length (by simp at hn; omega) hr rfl
          rw [List.flatMap_cons, hc, ← this, List.cons_append]

theorem encode_of_decode {bytes : Bytes} {text : String} (h : decode bytes = .ok text) :
    encode text = bytes := by
  unfold decode at h
  cases hd : decodeSteps (steps 0 0 bytes) with
  | error e => simp [hd, Except.map] at h
  | ok cs =>
    simp only [hd, Except.map, Except.ok.injEq] at h
    subst h
    rw [eq_encode_of_decodeSteps hd, encode, String.toList_ofList]

theorem decodeLossy_encode (text : String) : decodeLossy (encode text) = text := by
  have h (offset : Nat) (cs : List Char) :
      (steps offset 0 (cs.flatMap String.utf8EncodeChar)).map (·.2.2.shown) = cs := by
    induction cs generalizing offset with
    | nil => rfl
    | cons c cs ih =>
      obtain ⟨b, w, h⟩ := steps_encodeChar offset c (cs.flatMap String.utf8EncodeChar)
      rw [List.flatMap_cons, h, List.map_cons, ih]
      rfl
  rw [decodeLossy, encode, h, String.ofList_toList]

/-- Bytes are text exactly if they are the written form of some text. -/
theorem isValid_iff {bytes : Bytes} : isValid bytes = true ↔ ∃ text, encode text = bytes := by
  constructor
  · intro h
    unfold isValid at h
    cases hd : decode bytes with
    | error e => simp [hd, Except.isOk, Except.toBool] at h
    | ok text => exact ⟨text, encode_of_decode hd⟩
  · rintro ⟨text, rfl⟩
    rw [isValid, decode_encode]
    rfl

theorem isValid_encode (text : String) : isValid (encode text) = true :=
  isValid_iff.2 ⟨text, rfl⟩

theorem exists_decode {bytes : Bytes} (h : isValid bytes = true) :
    ∃ text, decode bytes = .ok text := by
  obtain ⟨text, rfl⟩ := isValid_iff.1 h
  exact ⟨text, decode_encode text⟩

theorem encode_decodeLossy {bytes : Bytes} (h : isValid bytes = true) :
    encode (decodeLossy bytes) = bytes := by
  obtain ⟨text, rfl⟩ := isValid_iff.1 h
  rw [decodeLossy_encode]

theorem encode_append (a b : String) : encode (a ++ b) = encode a ++ encode b := by
  simp [encode]

theorem encode_eq_nil {text : String} : encode text = [] ↔ text = "" := by
  rw [encode, List.flatMap_eq_nil_iff, ← String.toList_eq_nil_iff]
  constructor
  · intro h
    cases hcs : text.toList with
    | nil => rfl
    | cons c cs => exact absurd (h c (hcs ▸ List.mem_cons_self)) String.utf8EncodeChar_ne_nil
  · intro h
    simp [h]

/-- Some text is read off any byte. -/
theorem decodeLossy_ne_empty {bytes : Bytes} (h : bytes ≠ []) : decodeLossy bytes ≠ "" := by
  cases bytes with
  | nil => exact absurd rfl h
  | cons b rest => simp [decodeLossy, steps]

theorem isValid_nil : isValid [] = true := rfl

theorem isValid_append {a b : Bytes} (ha : isValid a = true) (hb : isValid b = true) :
    isValid (a ++ b) = true := by
  obtain ⟨s, rfl⟩ := isValid_iff.1 ha
  obtain ⟨t, rfl⟩ := isValid_iff.1 hb
  rw [← encode_append]
  exact isValid_encode _

private theorem exists_rest {cs ds : List Char} {b : Bytes}
    (h : cs.flatMap String.utf8EncodeChar ++ b = ds.flatMap String.utf8EncodeChar) :
    ∃ es : List Char, b = es.flatMap String.utf8EncodeChar := by
  induction cs generalizing ds with
  | nil => exact ⟨ds, h⟩
  | cons c cs ih =>
    cases hc : String.utf8EncodeChar c with
    | nil => exact absurd hc String.utf8EncodeChar_ne_nil
    | cons x xs =>
      cases ds with
      | nil => simp [hc] at h
      | cons d ds =>
        obtain ⟨y, w, hy⟩ := steps_encodeChar 0 d (ds.flatMap String.utf8EncodeChar)
        obtain ⟨y', w', hy'⟩ :=
          steps_encodeChar 0 c (cs.flatMap String.utf8EncodeChar ++ b)
        rw [List.flatMap_cons, List.flatMap_cons, List.append_assoc] at h
        -- both sides are read from the same bytes, so they start with one character
        rw [h, hy] at hy'
        simp only [List.cons.injEq, Prod.mk.injEq, Step.char.injEq] at hy'
        obtain ⟨⟨-, -, rfl, -⟩, -⟩ := hy'
        exact ih (List.append_cancel_left h)

/-- What follows text in a text is text. -/
theorem isValid_of_append {a b : Bytes} (hab : isValid (a ++ b) = true)
    (ha : isValid a = true) : isValid b = true := by
  obtain ⟨s, rfl⟩ := isValid_iff.1 ha
  obtain ⟨t, ht⟩ := isValid_iff.1 hab
  obtain ⟨es, rfl⟩ := exists_rest ht.symm
  exact isValid_iff.2 ⟨String.ofList es, by simp [encode]⟩

/-- An ASCII byte is a character of its own. -/
theorem eq_nil_of_encodeChar {c : Char} {a b : Bytes} {x : UInt8} (hx : x.toNat < 0x80)
    (h : String.utf8EncodeChar c = a ++ x :: b) : a = [] := by
  have hmem : x ∈ String.utf8EncodeChar c := by simp [h]
  rcases encodeChar_cases c with ⟨_, hc, -, -⟩ | ⟨_, _, hc, -, -, h1, h2⟩ |
      ⟨_, _, _, hc, -, -, h1, h2, h3⟩ | ⟨_, _, _, _, hc, -, -, h1, h2, h3, h4⟩ <;>
    rw [hc] at h hmem
  · cases a with
    | nil => rfl
    | cons y ys => simp at h
  all_goals
    simp only [List.mem_cons, List.not_mem_nil, or_false, ← UInt8.toNat_inj] at hmem
    omega

/-- What precedes an ASCII byte in a text is text. -/
theorem isValid_of_append_cons {a b : Bytes} {x : UInt8} (hx : x.toNat < 0x80)
    (h : isValid (a ++ x :: b) = true) : isValid a = true := by
  obtain ⟨t, ht⟩ := isValid_iff.1 h
  unfold encode at ht
  generalize t.toList = cs at ht
  induction cs generalizing a with
  | nil => simp at ht
  | cons c cs ih =>
    rw [List.flatMap_cons, List.append_eq_append_iff] at ht
    rcases ht with ⟨a', rfl, ha'⟩ | ⟨c', hc, hc'⟩
    · refine isValid_append (isValid_iff.2 ⟨String.ofList [c], by simp [encode]⟩) (ih ?_ ha')
      exact ha' ▸ isValid_iff.2 ⟨String.ofList cs, by simp [encode]⟩
    · cases c' with
      | nil =>
        rw [List.append_nil] at hc
        exact hc ▸ isValid_iff.2 ⟨String.ofList [c], by simp [encode]⟩
      | cons y ys =>
        simp only [List.cons_append, List.cons.injEq] at hc'
        rw [← hc'.1] at hc
        rw [eq_nil_of_encodeChar hx hc]
        exact isValid_nil

end Deadwood.Utf8
