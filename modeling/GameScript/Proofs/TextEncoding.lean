import GameScript.Code.Disassembly
import Mathlib.Tactic.SplitIfs

/-!
# Text survives its encoding

Lossy decoding undoes the encoding of every text: a character's bytes are read back as that
character whatever follows them, so nothing of a well-formed text is taken for damage. A zero byte
occurs in an encoding only for the character U+0000, so cutting the bytes at the first zero byte
cuts the text at that character. How damaged byte strings are divided is not a matter of this
module.
-/
namespace GameScript
namespace Utf8

theorem toNat_ofNat_of_lt {n : Nat} (h : n < 256) : (UInt8.ofNat n).toNat = n := by
  rw [UInt8.toNat_ofNat', Nat.mod_eq_of_lt h]

theorem isContinuation_of {b : UInt8} (h₁ : 0x80 ≤ b.toNat) (h₂ : b.toNat ≤ 0xBF) :
    isContinuation b = true := by
  simp only [isContinuation, UInt8.le_iff_toNat_le, Bool.and_eq_true, decide_eq_true_eq]
  exact ⟨h₁, h₂⟩

theorem front_one {b : UInt8} (h : b.toNat < 0x80) (rest : List UInt8) :
    front b rest = (some (Char.ofNat b.toNat), 0) := by
  have hlead : leadRange b = some (1, 0, 0) := if_pos (UInt8.lt_iff_toNat_lt.mpr h)
  simp only [front, hlead]

theorem leadRange_two {b : UInt8} (h₁ : 0xC2 ≤ b.toNat) (h₂ : b.toNat < 0xE0) :
    leadRange b = some (2, 0x80, 0xBF) := by
  unfold leadRange
  simp only [UInt8.lt_iff_toNat_lt, UInt8.reduceToNat]
  split_ifs <;> first | omega | rfl

theorem front_two {b c : UInt8} (h₁ : 0xC2 ≤ b.toNat) (h₂ : b.toNat < 0xE0)
    (hc : 0x80 ≤ c.toNat ∧ c.toNat ≤ 0xBF) (rest : List UInt8) :
    front b (c :: rest) = (some (Char.ofNat (b.toNat % 32 * 64 + tailBits c)), 1) := by
  have hcont := isContinuation_of hc.1 hc.2
  rw [isContinuation] at hcont
  simp only [front, leadRange_two h₁ h₂, if_pos hcont]

/-- The first byte of a character of three bytes narrows the second one in two cases. -/
theorem leadRange_three {b c : UInt8} (h₁ : 0xE0 ≤ b.toNat) (h₂ : b.toNat < 0xF0)
    (hc : 0x80 ≤ c.toNat ∧ c.toNat ≤ 0xBF) (hlow : b.toNat = 0xE0 → 0xA0 ≤ c.toNat)
    (hgap : b.toNat = 0xED → c.toNat ≤ 0x9F) :
    ∃ lo hi, leadRange b = some (3, lo, hi) ∧ lo ≤ c ∧ c ≤ hi := by
  unfold leadRange
  simp only [UInt8.lt_iff_toNat_lt, UInt8.le_iff_toNat_le, beq_iff_eq, ← UInt8.toNat_inj,
    UInt8.reduceToNat]
  split_ifs
  all_goals first | omega | skip
  all_goals exact ⟨_, _, rfl, by simp only [UInt8.reduceToNat]; omega, by
    simp only [UInt8.reduceToNat]; omega⟩

theorem front_three {b c d : UInt8} (h₁ : 0xE0 ≤ b.toNat) (h₂ : b.toNat < 0xF0)
    (hc : 0x80 ≤ c.toNat ∧ c.toNat ≤ 0xBF) (hlow : b.toNat = 0xE0 → 0xA0 ≤ c.toNat)
    (hgap : b.toNat = 0xED → c.toNat ≤ 0x9F) (hd : 0x80 ≤ d.toNat ∧ d.toNat ≤ 0xBF)
    (rest : List UInt8) :
    front b (c :: d :: rest) =
      (some (Char.ofNat ((b.toNat % 16 * 64 + tailBits c) * 64 + tailBits d)), 2) := by
  obtain ⟨lo, hi, hlead, hlo, hhi⟩ := leadRange_three h₁ h₂ hc hlow hgap
  simp only [front, hlead, hlo, hhi, isContinuation_of hd.1 hd.2, decide_true, Bool.and_self,
    if_true]

/-- The first byte of a character of four bytes narrows the second one in two cases. -/
theorem leadRange_four {b c : UInt8} (h₁ : 0xF0 ≤ b.toNat) (h₂ : b.toNat ≤ 0xF4)
    (hc : 0x80 ≤ c.toNat ∧ c.toNat ≤ 0xBF) (hlow : b.toNat = 0xF0 → 0x90 ≤ c.toNat)
    (hhigh : b.toNat = 0xF4 → c.toNat ≤ 0x8F) :
    ∃ lo hi, leadRange b = some (4, lo, hi) ∧ lo ≤ c ∧ c ≤ hi := by
  unfold leadRange
  simp only [UInt8.lt_iff_toNat_lt, UInt8.le_iff_toNat_le, beq_iff_eq, ← UInt8.toNat_inj,
    UInt8.reduceToNat]
  split_ifs
  all_goals first | omega | skip
  all_goals exact ⟨_, _, rfl, by simp only [UInt8.reduceToNat]; omega, by
    simp only [UInt8.reduceToNat]; omega⟩

theorem front_four {b c d e : UInt8} (h₁ : 0xF0 ≤ b.toNat) (h₂ : b.toNat ≤ 0xF4)
    (hc : 0x80 ≤ c.toNat ∧ c.toNat ≤ 0xBF) (hlow : b.toNat = 0xF0 → 0x90 ≤ c.toNat)
    (hhigh : b.toNat = 0xF4 → c.toNat ≤ 0x8F) (hd : 0x80 ≤ d.toNat ∧ d.toNat ≤ 0xBF)
    (he : 0x80 ≤ e.toNat ∧ e.toNat ≤ 0xBF) (rest : List UInt8) :
    front b (c :: d :: e :: rest) =
      (some (Char.ofNat
        (((b.toNat % 8 * 64 + tailBits c) * 64 + tailBits d) * 64 + tailBits e)), 3) := by
  obtain ⟨lo, hi, hlead, hlo, hhi⟩ := leadRange_four h₁ h₂ hc hlow hhigh
  simp only [front, hlead, hlo, hhi, isContinuation_of hd.1 hd.2, isContinuation_of he.1 he.2,
    decide_true, Bool.and_self, if_true]

/-- Code points stop at U+10FFFF and leave out the surrogates. -/
theorem char_bounds (c : Char) :
    c.toNat ≤ 0x10FFFF ∧ (c.toNat < 0xD800 ∨ 0xDFFF < c.toNat) := by
  have hvalid : c.val.toNat < 0xD800 ∨ 0xDFFF < c.val.toNat ∧ c.val.toNat < 0x110000 := c.valid
  have he : c.toNat = c.val.toNat := rfl
  omega

theorem ofNat_of_eq {c : Char} {n : Nat} (h : n = c.toNat) : Char.ofNat n = c := by
  rw [h, Char.ofNat_toNat]

/-- The first character of an encoded text is read back, whatever follows it. -/
theorem front_encode (c : Char) : ∃ b tail, String.utf8EncodeChar c = b :: tail ∧
    ∀ rest, front b (tail ++ rest) = (some c, tail.length) := by
  obtain ⟨hmax, hgap⟩ := char_bounds c
  have he : c.val.toNat = c.toNat := rfl
  unfold String.utf8EncodeChar
  simp only [he]
  -- One case for each length of an encoding; the bytes are known by their values from here on.
  split_ifs with h₁ h₂ h₃
  · refine ⟨_, [], rfl, fun rest => ?_⟩
    have hb := toNat_ofNat_of_lt (n := c.toNat) (by omega)
    rw [front_one (by omega), ofNat_of_eq hb]
    rfl
  · refine ⟨_, [_], rfl, fun rest => ?_⟩
    have hb := toNat_ofNat_of_lt (n := c.toNat / 64 % 32 + 192) (by omega)
    have hx := toNat_ofNat_of_lt (n := c.toNat % 64 + 128) (by omega)
    rw [List.singleton_append, front_two (by omega) (by omega) (by omega), ofNat_of_eq]
    · rfl
    · simp only [tailBits, hb, hx]; omega
  · refine ⟨_, [_, _], rfl, fun rest => ?_⟩
    have hb := toNat_ofNat_of_lt (n := c.toNat / 4096 % 16 + 224) (by omega)
    have hx := toNat_ofNat_of_lt (n := c.toNat / 64 % 64 + 128) (by omega)
    have hy := toNat_ofNat_of_lt (n := c.toNat % 64 + 128) (by omega)
    rw [List.cons_append, List.singleton_append, front_three (by omega) (by omega) (by omega)
      (by omega) (by omega) (by omega), ofNat_of_eq]
    · rfl
    · simp only [tailBits, hb, hx, hy]; omega
  · refine ⟨_, [_, _, _], rfl, fun rest => ?_⟩
    have hb := toNat_ofNat_of_lt (n := c.toNat / 262144 % 8 + 240) (by omega)
    have hx := toNat_ofNat_of_lt (n := c.toNat / 4096 % 64 + 128) (by omega)
    have hy := toNat_ofNat_of_lt (n := c.toNat / 64 % 64 + 128) (by omega)
    have hz := toNat_ofNat_of_lt (n := c.toNat % 64 + 128) (by omega)
    rw [List.cons_append, List.cons_append, List.singleton_append,
      front_four (by omega) (by omega) (by omega) (by omega) (by omega) (by omega) (by omega),
      ofNat_of_eq]
    · rfl
    · simp only [tailBits, hb, hx, hy, hz]; omega

theorem scan_encode (cs : List Char) : scan (cs.flatMap String.utf8EncodeChar) = cs.map some := by
  induction cs with
  | nil => rw [List.flatMap_nil, scan, List.map_nil]
  | cons c cs ih =>
      obtain ⟨b, tail, hencode, hfront⟩ := front_encode c
      rw [List.flatMap_cons, hencode, List.cons_append, scan, hfront]
      simp only [List.drop_left, ih, List.map_cons]

/-- Lossy decoding loses nothing of a text. -/
theorem decodeLossy_encode (cs : List Char) :
    decodeLossy (cs.flatMap String.utf8EncodeChar) = String.ofList cs := by
  rw [decodeLossy, scan_encode, List.map_map]
  exact congrArg String.ofList (List.map_id cs)

/-- Every byte of a longer encoding is at least `0x80`, so only U+0000 has a zero byte. -/
theorem encode_value {c : Char} {b : UInt8} (h : b ∈ String.utf8EncodeChar c) :
    b.toNat < 0xF8 ∧ (b.toNat = 0 → c.toNat = 0) := by
  obtain ⟨hmax, _⟩ := char_bounds c
  have he : c.val.toNat = c.toNat := rfl
  have hvalue : ∃ n < 0xF8, b = UInt8.ofNat n ∧ (n = 0 → c.toNat = 0) := by
    unfold String.utf8EncodeChar at h
    simp only [he] at h
    split_ifs at h <;> simp only [List.mem_cons, List.not_mem_nil, or_false] at h
    · exact ⟨_, by omega, h, id⟩
    · rcases h with h | h <;> exact ⟨_, by omega, h, by omega⟩
    · rcases h with h | h | h <;> exact ⟨_, by omega, h, by omega⟩
    · rcases h with h | h | h | h <;> exact ⟨_, by omega, h, by omega⟩
  obtain ⟨n, hn, rfl, hzero⟩ := hvalue
  rw [toNat_ofNat_of_lt (by omega)]
  exact ⟨hn, hzero⟩

theorem encode_ne_zero {c : Char} {b : UInt8} (hc : c ≠ '\x00')
    (h : b ∈ String.utf8EncodeChar c) : b ≠ 0 := by
  intro hb
  subst hb
  exact hc (ofNat_of_eq ((encode_value h).2 rfl).symm).symm

end Utf8

def beforeNulChar (s : String) : String := String.ofList (s.toList.takeWhile (· != '\x00'))

namespace Bytes

theorem beforeNul_append {bs : Bytes} (h : ∀ b ∈ bs, b ≠ 0) (rest : Bytes) :
    beforeNul (bs ++ rest) = bs ++ beforeNul rest := by
  rw [beforeNul, List.takeWhile_append_of_pos]
  · rfl
  · intro b hb
    exact bne_iff_ne.mpr (h b hb)

/-- A closing zero is cut off again. -/
theorem beforeNul_append_zero (bs : Bytes) : beforeNul (bs ++ [0]) = beforeNul bs := by
  induction bs with
  | nil => rfl
  | cons b bs ih =>
      simp only [beforeNul, List.cons_append, List.takeWhile_cons] at ih ⊢
      rw [ih]

theorem beforeNul_encode (cs : List Char) :
    beforeNul (cs.flatMap String.utf8EncodeChar) =
      (cs.takeWhile (· != '\x00')).flatMap String.utf8EncodeChar := by
  induction cs with
  | nil => rfl
  | cons c cs ih =>
      by_cases hc : c = '\x00'
      · subst hc
        rfl
      · have hkeep : (c != '\x00') = true := bne_iff_ne.mpr hc
        rw [List.flatMap_cons, beforeNul_append fun b hb => Utf8.encode_ne_zero hc hb, ih]
        simp only [List.takeWhile_cons, hkeep, if_true, List.flatMap_cons]

/-- An encoding has no byte that a reader of embedded names skips. -/
theorem ne_ff_of_mem_utf8Bytes {s : String} {b : UInt8} (h : b ∈ utf8Bytes s) : b ≠ 0xFF := by
  obtain ⟨c, _, hb⟩ := List.mem_flatMap.mp h
  have hlt := (Utf8.encode_value hb).1
  rintro rfl
  exact absurd hlt (by decide)

/-- An encoded text is read back up to its first U+0000. -/
theorem decodeLossy_beforeNul (s : String) :
    Utf8.decodeLossy (beforeNul (utf8Bytes s)) = beforeNulChar s := by
  rw [utf8Bytes, beforeNul_encode, Utf8.decodeLossy_encode, beforeNulChar]

end Bytes
end GameScript
