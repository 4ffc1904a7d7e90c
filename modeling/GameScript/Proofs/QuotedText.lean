import Mathlib.Algebra.Ring.Parity
import Mathlib.Data.List.Induction
import GameScript.Code.Listing

/-!
# Quoted text can be read back

A listing writes a text between single quotes on one line. The reader here goes the other way, from
the character after the opening quote up to the closing one: it knows escapes of one letter and
escapes of two hexadecimal digits, and nothing else. It finds every text again, whatever follows the
closing quote, so no two texts are written alike. Between the quotes there is no control character,
and a quote that belongs to the text comes after an odd number of backslashes while the closing one
comes after an even number.
-/
namespace GameScript

def escapeLetter? : Char → Option Char
  | '\\' => some '\\'
  | '\'' => some '\''
  | 'n' => some '\n'
  | 'r' => some '\r'
  | 't' => some '\t'
  | '0' => some '\x00'
  | _ => none

/-- Read up to the closing quote. What follows it is left over. -/
def readQuoted : List Char → Option (List Char × List Char)
  | [] => none
  | c :: rest =>
    if c = '\'' then some ([], rest)
    else if c = '\\' then
      match rest with
      | 'x' :: high :: low :: rest => do
        let high ← hexDigitValue? high
        let low ← hexDigitValue? low
        let (cs, rest) ← readQuoted rest
        return (Char.ofNat (16 * high + low) :: cs, rest)
      | letter :: rest => do
        let c ← escapeLetter? letter
        let (cs, rest) ← readQuoted rest
        return (c :: cs, rest)
      | [] => none
    else do
      let (cs, rest) ← readQuoted rest
      return (c :: cs, rest)

/-! ## What one character is written as -/

/-- A character is written as itself, with a letter, or with two digits. -/
inductive WrittenAs (c : Char) : List Char → Prop where
  | plain : c ≠ '\\' → c ≠ '\'' → isControl c = false → WrittenAs c [c]
  | letter {d : Char} : escapeLetter? d = some c → WrittenAs c ['\\', d]
  | digits {high low : Char} : hexDigitValue? high = some (c.toNat / 16) →
      hexDigitValue? low = some (c.toNat % 16) → WrittenAs c ['\\', 'x', high, low]

/-- Two digits are enough for every control character. -/
theorem controlDigits :
    (List.range 0xA0).all (fun n =>
      (((Nat.toDigits 16 n).leftpad 2 '0').map Char.toUpper).map hexDigitValue? ==
        [some (n / 16), some (n % 16)]) = true := by
  decide +kernel

theorem writtenAs_control {c : Char} (h : isControl c = true) :
    WrittenAs c ('\\' :: 'x' :: ((Nat.toDigits 16 c.toNat).leftpad 2 '0').map Char.toUpper) := by
  have hlt : c.toNat < 0xA0 := by
    simp only [isControl, Bool.or_eq_true, Bool.and_eq_true, decide_eq_true_eq] at h
    omega
  have hdigits := List.all_eq_true.mp controlDigits c.toNat (List.mem_range.mpr hlt)
  rw [beq_iff_eq] at hdigits
  obtain ⟨high, rest, heq, hhigh, hrest⟩ := List.map_eq_cons_iff.mp hdigits
  obtain ⟨low, rfl, hlow⟩ := List.map_eq_singleton_iff.mp hrest
  rw [heq]
  exact .digits hhigh hlow

theorem writtenAs_escapeChar (c : Char) : WrittenAs c (escapeChar c) := by
  unfold escapeChar
  split
  case h_7 c hbackslash hquote _ _ _ _ =>
    split
    · next hcontrol => exact writtenAs_control hcontrol
    · next hcontrol => exact .plain hbackslash hquote (Bool.eq_false_iff.mpr hcontrol)
  all_goals exact .letter rfl

/-! ## Reading back -/

theorem readQuoted_quote (rest : List Char) : readQuoted ('\'' :: rest) = some ([], rest) := by
  rw [readQuoted.eq_def]
  rfl

theorem readQuoted_plain {c : Char} (hquote : c ≠ '\'') (hbackslash : c ≠ '\\') (rest : List Char) :
    readQuoted (c :: rest) = (readQuoted rest).map fun r => (c :: r.1, r.2) := by
  rw [readQuoted.eq_def]
  dsimp only
  rw [if_neg hquote, if_neg hbackslash]
  cases readQuoted rest <;> rfl

theorem readQuoted_letter {c d : Char} (h : escapeLetter? d = some c) (rest : List Char) :
    readQuoted ('\\' :: d :: rest) = (readQuoted rest).map fun r => (c :: r.1, r.2) := by
  have hd : d ≠ 'x' := by
    rintro rfl
    cases h
  rw [readQuoted, if_neg (by decide), if_pos rfl, h]
  · cases readQuoted rest <;> rfl
  · exact fun _ _ _ heq => absurd heq hd

theorem readQuoted_digits {c high low : Char} (hhigh : hexDigitValue? high = some (c.toNat / 16))
    (hlow : hexDigitValue? low = some (c.toNat % 16)) (rest : List Char) :
    readQuoted ('\\' :: 'x' :: high :: low :: rest) =
      (readQuoted rest).map fun r => (c :: r.1, r.2) := by
  have hc : Char.ofNat (16 * (c.toNat / 16) + c.toNat % 16) = c := by
    rw [Nat.div_add_mod, Char.ofNat_toNat]
  rw [readQuoted, if_neg (by decide), if_pos rfl]
  simp only [hhigh, hlow, Option.bind_eq_bind, Option.bind_some, hc]
  cases readQuoted rest <;> rfl

/-- One character is read back from what it is written as. -/
theorem readQuoted_writtenAs {c : Char} {cs : List Char} (h : WrittenAs c cs) (rest : List Char) :
    readQuoted (cs ++ rest) = (readQuoted rest).map fun r => (c :: r.1, r.2) := by
  cases h with
  | plain hbackslash hquote _ => exact readQuoted_plain hquote hbackslash rest
  | letter h => exact readQuoted_letter h rest
  | digits hhigh hlow => exact readQuoted_digits hhigh hlow rest

theorem readQuoted_flatMap (cs rest : List Char) :
    readQuoted (cs.flatMap escapeChar ++ '\'' :: rest) = some (cs, rest) := by
  induction cs with
  | nil => rw [List.flatMap_nil, List.nil_append, readQuoted_quote]
  | cons c cs ih =>
      rw [List.flatMap_cons, List.append_assoc, readQuoted_writtenAs (writtenAs_escapeChar c), ih]
      rfl

/-- The text that a written form stands for, if a closing quote right after it would be the
first. -/
def unescape? (t : String) : Option String :=
  match readQuoted (t.toList ++ ['\'']) with
  | some (cs, []) => some (String.ofList cs)
  | _ => none

theorem unescape?_escape (s : String) : unescape? (escape s) = some s := by
  rw [unescape?, escape, String.toList_ofList, readQuoted_flatMap]
  exact congrArg some String.ofList_toList

/-! ## Control characters -/

theorem isControl_of_escapeLetter {c d : Char} (h : escapeLetter? d = some c) :
    isControl d = false := by
  unfold escapeLetter? at h
  split at h
  case h_7 => cases h
  all_goals rfl

/-- A digit is none of the characters that a listing has to treat with care. -/
theorem plain_of_hexDigit {c : Char} {n : Nat} (h : hexDigitValue? c = some n) :
    c ≠ '\\' ∧ c ≠ '\'' ∧ isControl c = false := by
  have hrange : 48 ≤ c.toNat ∧ c.toNat ≤ 70 ∨ 97 ≤ c.toNat ∧ c.toNat ≤ 102 := by
    unfold hexDigitValue? at h
    simp only [Char.le_def, UInt32.le_iff_toNat_le] at h
    unfold Char.toNat at h ⊢
    grind
  refine ⟨?_, ?_, ?_⟩
  · rintro rfl
    exact absurd hrange (by decide)
  · rintro rfl
    exact absurd hrange (by decide)
  · simp only [isControl, Bool.or_eq_false_iff, Bool.and_eq_false_iff, decide_eq_false_iff_not]
    omega

theorem isControl_of_writtenAs {c d : Char} {cs : List Char} (h : WrittenAs c cs) (hd : d ∈ cs) :
    isControl d = false := by
  cases h with
  | plain _ _ hcontrol =>
      obtain rfl := List.mem_singleton.mp hd
      exact hcontrol
  | letter hletter =>
      rcases List.mem_cons.mp hd with rfl | hd
      · rfl
      · obtain rfl := List.mem_singleton.mp hd
        exact isControl_of_escapeLetter hletter
  | digits hhigh hlow =>
      simp only [List.mem_cons, List.not_mem_nil, or_false] at hd
      rcases hd with rfl | rfl | rfl | rfl
      · rfl
      · rfl
      · exact (plain_of_hexDigit hhigh).2.2
      · exact (plain_of_hexDigit hlow).2.2

/-! ## Quotes and backslashes -/

def backslashesAtEnd (cs : List Char) : Nat := (cs.reverse.takeWhile (· == '\\')).length

theorem backslashesAtEnd_backslash (cs : List Char) :
    backslashesAtEnd (cs ++ ['\\']) = backslashesAtEnd cs + 1 := by
  simp [backslashesAtEnd]

theorem backslashesAtEnd_other {c : Char} (h : c ≠ '\\') (cs : List Char) :
    backslashesAtEnd (cs ++ [c]) = 0 := by
  simp [backslashesAtEnd, h]

/-- Every quote comes right after an odd number of backslashes. -/
def QuotesEscaped (cs : List Char) : Prop :=
  ∀ front back, cs = front ++ '\'' :: back → Odd (backslashesAtEnd front)

theorem QuotesEscaped.nil : QuotesEscaped [] := by
  intro front back h
  simp at h

theorem QuotesEscaped.concat {cs : List Char} {c : Char} (h : QuotesEscaped cs)
    (hc : c = '\'' → Odd (backslashesAtEnd cs)) : QuotesEscaped (cs ++ [c]) := by
  intro front back heq
  rcases List.eq_nil_or_concat back with rfl | ⟨back, d, rfl⟩
  · obtain ⟨rfl, hlast⟩ := List.append_inj' heq rfl
    exact hc (List.singleton_inj.mp hlast)
  · rw [List.concat_eq_append, ← List.cons_append, ← List.append_assoc] at heq
    exact h front back (List.append_inj' heq rfl).1

/-- After whole characters the quotes are escaped, and no backslash is left to escape the next
one. -/
structure Closable (cs : List Char) : Prop where
  quotes : QuotesEscaped cs
  even : Even (backslashesAtEnd cs)

theorem Closable.concat {cs : List Char} {c : Char} (h : Closable cs) (hquote : c ≠ '\'')
    (hbackslash : c ≠ '\\') : Closable (cs ++ [c]) where
  quotes := h.quotes.concat fun heq => absurd heq hquote
  even := by
    rw [backslashesAtEnd_other hbackslash]
    exact Even.zero

theorem Closable.escape {cs : List Char} (h : Closable cs) (c : Char) :
    Closable (cs ++ ['\\', c]) := by
  rw [← List.singleton_append, ← List.append_assoc]
  have hodd : Odd (backslashesAtEnd (cs ++ ['\\'])) := by
    rw [backslashesAtEnd_backslash]
    exact h.even.add_one
  have hquotes : QuotesEscaped (cs ++ ['\\']) := h.quotes.concat fun heq => absurd heq (by decide)
  refine ⟨hquotes.concat fun _ => hodd, ?_⟩
  by_cases hc : c = '\\'
  · rw [hc, backslashesAtEnd_backslash]
    exact hodd.add_one
  · rw [backslashesAtEnd_other hc]
    exact Even.zero

theorem Closable.append_writtenAs {cs w : List Char} {c : Char} (h : Closable cs)
    (hw : WrittenAs c w) : Closable (cs ++ w) := by
  cases hw with
  | plain hbackslash hquote _ => exact h.concat hquote hbackslash
  | letter _ => exact h.escape _
  | digits hhigh hlow =>
      obtain ⟨hhigh, hhigh', _⟩ := plain_of_hexDigit hhigh
      obtain ⟨hlow, hlow', _⟩ := plain_of_hexDigit hlow
      have hclosable := ((h.escape 'x').concat hhigh' hhigh).concat hlow' hlow
      rwa [List.append_assoc, List.append_assoc] at hclosable

theorem closable_flatMap (cs : List Char) : Closable (cs.flatMap escapeChar) := by
  induction cs using List.reverseRecOn with
  | nil => exact ⟨.nil, Even.zero⟩
  | append_singleton cs c ih =>
      rw [List.flatMap_append, List.flatMap_singleton]
      exact ih.append_writtenAs (writtenAs_escapeChar c)

/-- Escaping can be undone, also where the written form is an operand with anything after it.
Between the quotes of the operand no character is a control character and every quote is escaped,
and the closing quote is not. -/
theorem escape_unambiguous :
    (∀ s, unescape? (escape s) = some s) ∧
      (∀ s t, escape s = escape t → s = t) ∧
      (∀ s rest, ∃ written, (Operand.text s).render.toList = '\'' :: written ∧
        readQuoted (written ++ rest) = some (s.toList, rest)) ∧
      (∀ s, ∀ c ∈ (escape s).toList, isControl c = false) ∧
      (∀ s front back, (escape s).toList = front ++ '\'' :: back → Odd (backslashesAtEnd front)) ∧
      ∀ s, Even (backslashesAtEnd (escape s).toList) := by
  have hclosable (s : String) : Closable (escape s).toList := by
    rw [escape, String.toList_ofList]
    exact closable_flatMap s.toList
  refine ⟨unescape?_escape, fun s t h => ?_, fun s rest => ?_, fun s c hc => ?_,
    fun s => (hclosable s).quotes, fun s => (hclosable s).even⟩
  · have hs := unescape?_escape s
    rw [h, unescape?_escape] at hs
    exact (Option.some.inj hs).symm
  · refine ⟨s.toList.flatMap escapeChar ++ ['\''], ?_, ?_⟩
    · simp [Operand.render, escape]
    · rw [List.append_assoc, List.singleton_append, readQuoted_flatMap]
  · rw [escape, String.toList_ofList] at hc
    obtain ⟨d, _, hc⟩ := List.mem_flatMap.mp hc
    exact isControl_of_writtenAs (writtenAs_escapeChar d) hc

end GameScript
