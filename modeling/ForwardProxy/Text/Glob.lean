/-
ForwardProxy.Text.Glob — glob-style patterns over bytes, and the pattern
that matches what begins with a given text.

The patterns are those of Redis: `*` any bytes, `?` one byte, `[abc]`,
`[a-c]` and `[^a]` one byte of a class, and `\` takes the next byte as it
is. A class that is not closed ends with the pattern. `parseGlob` reads a
pattern into items, `matchItems` says what they match.

`escapeGlob` puts a `\` before the bytes that mean something, character by
character. In UTF-8 the bytes of a character that is not ASCII are all at
least 128 (`encode_not_special`), so none of them is one of those bytes,
and the escaped text stands for its own bytes (`parseGlob_escape`).
-/
import Mathlib.Data.List.Basic
import Mathlib.Data.List.Infix
import Mathlib.Tactic.Common

namespace ForwardProxy.Text

/-! ## UTF-8 -/

/-- The bytes of a text. -/
def utf8 (cs : List Char) : List UInt8 := cs.flatMap String.utf8EncodeChar

theorem utf8_append (a b : List Char) : utf8 (a ++ b) = utf8 a ++ utf8 b := List.flatMap_append

theorem utf8_cons (c : Char) (cs : List Char) :
    utf8 (c :: cs) = String.utf8EncodeChar c ++ utf8 cs := List.flatMap_cons

/-- One text begins with another exactly when its bytes do. -/
theorem utf8_prefix_iff (a b : List Char) : utf8 a <+: utf8 b ↔ a <+: b := by
  constructor
  · rintro ⟨rest, hrest⟩
    refine List.isPrefix_of_utf8Encode_append_eq_utf8Encode rest.toByteArray ?_
    simp only [List.utf8Encode]
    rw [← List.toByteArray_append]
    exact congrArg List.toByteArray hrest
  · rintro ⟨rest, rfl⟩
    exact ⟨utf8 rest, (utf8_append a rest).symm⟩

theorem utf8_injective : Function.Injective utf8 := by
  intro a b h
  have hab := (utf8_prefix_iff a b).mp (h ▸ List.prefix_rfl)
  have hba := (utf8_prefix_iff b a).mp (h ▸ List.prefix_rfl)
  exact hab.eq_of_length_le hba.length_le

/-! ## Patterns -/

/-- A piece of a pattern. A class is a list of ranges, negated or not. -/
inductive GlobItem where
  | star
  | any
  | oneOf (negated : Bool) (ranges : List (UInt8 × UInt8))
  | byte (b : UInt8)
  deriving DecidableEq, Repr

mutual

/-- Read a pattern. A `\` at its end stands for itself. -/
def parseGlob : List UInt8 → List GlobItem
  | [] => []
  | 92 :: c :: rest => .byte c :: parseGlob rest
  | b :: rest =>
    if b = 42 then .star :: parseGlob rest
    else if b = 63 then .any :: parseGlob rest
    else if b = 91 then parseClass none [] rest
    else .byte b :: parseGlob rest

/-- Read a class. `negated` is `none` until its first byte is read. -/
def parseClass (negated : Option Bool) (ranges : List (UInt8 × UInt8)) :
    List UInt8 → List GlobItem
  | [] => [.oneOf (negated.getD false) ranges]
  | 92 :: c :: rest => parseClass (some (negated.getD false)) ((c, c) :: ranges) rest
  | 93 :: rest => .oneOf (negated.getD false) ranges :: parseGlob rest
  | a :: rest =>
    if a = 94 ∧ negated = none then parseClass (some true) ranges rest
    else
      match rest with
      | 45 :: b :: rest =>
        parseClass (some (negated.getD false)) ((min a b, max a b) :: ranges) rest
      | rest => parseClass (some (negated.getD false)) ((a, a) :: ranges) rest

end

/-- What items match. -/
def matchItems : List GlobItem → List UInt8 → Bool
  | [], s => s.isEmpty
  | .star :: items, s => s.tails.any (matchItems items)
  | .any :: items, _ :: s => matchItems items s
  | .oneOf negated ranges :: items, c :: s =>
    (ranges.any fun range => range.1 ≤ c && c ≤ range.2) != negated && matchItems items s
  | .byte b :: items, c :: s => b == c && matchItems items s
  | _ :: _, [] => false

def globMatch (pattern s : List UInt8) : Bool := matchItems (parseGlob pattern) s

/-- The characters that mean something in a pattern, and `]`. -/
def isSpecial (c : Char) : Bool := c = '*' ∨ c = '?' ∨ c = '[' ∨ c = ']' ∨ c = '\\'

def escapeGlob (c : Char) : List Char := if isSpecial c then ['\\', c] else [c]

theorem parseGlob_plain {b : UInt8} (h : b ≠ 42 ∧ b ≠ 63 ∧ b ≠ 91 ∧ b ≠ 92) (rest : List UInt8) :
    parseGlob (b :: rest) = .byte b :: parseGlob rest := by
  rw [parseGlob, if_neg h.1, if_neg h.2.1, if_neg h.2.2.1]
  intro _ _ hb _
  exact h.2.2.2 hb

theorem parseGlob_plain_append {bs : List UInt8}
    (h : ∀ b ∈ bs, b ≠ 42 ∧ b ≠ 63 ∧ b ≠ 91 ∧ b ≠ 92) (rest : List UInt8) :
    parseGlob (bs ++ rest) = bs.map .byte ++ parseGlob rest := by
  induction bs with
  | nil => rfl
  | cons b bs ih =>
    rw [List.cons_append, parseGlob_plain (h b (by simp)), ih fun c hc => h c (by simp [hc])]
    rfl

theorem parseGlob_escaped (b : UInt8) (rest : List UInt8) :
    parseGlob (92 :: b :: rest) = .byte b :: parseGlob rest := by
  rw [parseGlob]

/-! ## Escaped texts -/

/-- The bytes of a character are its own code, below 128, or all at least
128. -/
theorem encode_cases (c : Char) :
    (String.utf8EncodeChar c = [c.val.toUInt8] ∧ c.val.toNat < 128) ∨
      ∀ b ∈ String.utf8EncodeChar c, 128 ≤ b.toNat := by
  have hhigh : ∀ a m : UInt8, 128 ≤ m.toNat → 128 ≤ (a ||| m).toNat := by
    intro a m hm
    rw [UInt8.toNat_or]
    exact hm.trans Nat.right_le_or
  have hsize := c.utf8Size_pos
  have hsize' := c.utf8Size_le_four
  obtain h | h | h | h : c.utf8Size = 1 ∨ c.utf8Size = 2 ∨ c.utf8Size = 3 ∨ c.utf8Size = 4 := by
    omega
  · left
    refine ⟨String.utf8EncodeChar_eq_singleton h, ?_⟩
    have hle : c.val ≤ 127 := Char.utf8Size_eq_one_iff.mp h
    exact Nat.lt_succ_of_le hle
  · right
    rw [String.utf8EncodeChar_eq_cons_cons h]
    simp only [List.forall_mem_cons, List.not_mem_nil, false_implies, implies_true, and_true]
    exact ⟨hhigh _ _ (by decide), hhigh _ _ (by decide)⟩
  · right
    rw [String.utf8EncodeChar_eq_cons_cons_cons h]
    simp only [List.forall_mem_cons, List.not_mem_nil, false_implies, implies_true, and_true]
    exact ⟨hhigh _ _ (by decide), hhigh _ _ (by decide), hhigh _ _ (by decide)⟩
  · right
    rw [String.utf8EncodeChar_eq_cons_cons_cons_cons h]
    simp only [List.forall_mem_cons, List.not_mem_nil, false_implies, implies_true, and_true]
    exact ⟨hhigh _ _ (by decide), hhigh _ _ (by decide), hhigh _ _ (by decide),
      hhigh _ _ (by decide)⟩

theorem char_of_byte {c d : Char} (hc : c.val.toNat < 128) (hd : d.val.toNat < 128)
    (h : c.val.toUInt8 = d.val.toUInt8) : c = d := by
  have hnat := congrArg UInt8.toNat h
  simp only [UInt32.toNat_toUInt8] at hnat
  rw [Nat.mod_eq_of_lt (by omega), Nat.mod_eq_of_lt (by omega)] at hnat
  exact Char.ext (UInt32.toNat_inj.mp hnat)

/-- No byte of a character that is not special is one of a pattern. -/
theorem encode_not_special {c : Char} (h : isSpecial c = false) :
    ∀ b ∈ String.utf8EncodeChar c, b ≠ 42 ∧ b ≠ 63 ∧ b ≠ 91 ∧ b ≠ 92 := by
  intro b hb
  rcases encode_cases c with ⟨hcode, hlt⟩ | hhigh
  · rw [hcode, List.mem_singleton] at hb
    subst hb
    simp only [isSpecial, decide_eq_false_iff_not, not_or] at h
    refine ⟨?_, ?_, ?_, ?_⟩
    · exact fun he => h.1 (char_of_byte (d := '*') hlt (by decide) he)
    · exact fun he => h.2.1 (char_of_byte (d := '?') hlt (by decide) he)
    · exact fun he => h.2.2.1 (char_of_byte (d := '[') hlt (by decide) he)
    · exact fun he => h.2.2.2.2 (char_of_byte (d := '\\') hlt (by decide) he)
  · have hb := hhigh b hb
    refine ⟨?_, ?_, ?_, ?_⟩ <;> (rintro rfl; exact absurd hb (by decide))

/-- A special character is one byte. -/
theorem encode_special {c : Char} (h : isSpecial c = true) :
    String.utf8EncodeChar c = [c.val.toUInt8] := by
  simp only [isSpecial, decide_eq_true_eq] at h
  rcases h with rfl | rfl | rfl | rfl | rfl <;> decide

/-- An escaped text stands for its own bytes. -/
theorem parseGlob_escape (cs : List Char) (rest : List UInt8) :
    parseGlob (utf8 (cs.flatMap escapeGlob) ++ rest) =
      (utf8 cs).map .byte ++ parseGlob rest := by
  induction cs with
  | nil => rfl
  | cons c cs ih =>
    rw [List.flatMap_cons, utf8_append, List.append_assoc, utf8_cons, List.map_append,
      List.append_assoc, ← ih]
    cases hc : isSpecial c with
    | false =>
      have hplain : utf8 (escapeGlob c) = String.utf8EncodeChar c := by
        simp [escapeGlob, hc, utf8]
      rw [hplain, parseGlob_plain_append (encode_not_special hc)]
    | true =>
      have hescaped : utf8 (escapeGlob c) = [92, c.val.toUInt8] := by
        rw [escapeGlob, if_pos hc, utf8_cons, utf8_cons, encode_special hc]
        rfl
      rw [hescaped, encode_special hc, List.cons_append, List.cons_append, parseGlob_escaped]
      rfl

theorem matchItems_bytes_star (bs s : List UInt8) :
    matchItems (bs.map .byte ++ [.star]) s = true ↔ bs <+: s := by
  induction bs generalizing s with
  | nil =>
    simp only [List.map_nil, List.nil_append, matchItems, List.any_eq_true, List.mem_tails,
      List.nil_prefix, iff_true]
    exact ⟨[], List.nil_suffix, rfl⟩
  | cons b bs ih =>
    cases s with
    | nil => simp [matchItems]
    | cons c s =>
      rw [List.map_cons, List.cons_append, matchItems, Bool.and_eq_true, ih, beq_iff_eq,
        List.cons_prefix_cons]

/-- The escaped text and a `*` match what begins with the text. -/
theorem globMatch_escape_star (cs : List Char) (s : List UInt8) :
    globMatch (utf8 (cs.flatMap escapeGlob ++ ['*'])) s = true ↔ utf8 cs <+: s := by
  have hstar : utf8 ['*'] = [42] := by decide
  have hparse : parseGlob [42] = [.star] := by decide
  unfold globMatch
  rw [utf8_append, parseGlob_escape, hstar, hparse, matchItems_bytes_star]

end ForwardProxy.Text
