import GameScript.Code.Disassembly

/-!
# Reading back what was written into bytes

The writer `leBytes` and the readers of `Bytes` are inverse to each other at every width. The lemmas
here have the form "reading the front of a written string gives the value and the rest", so that
they chain along a record of several fields. Nothing here depends on what the fields mean.
-/
namespace GameScript

@[simp] theorem length_leBytes (k n : Nat) : (leBytes k n).length = k := by
  induction k generalizing n with
  | zero => rfl
  | succ k ih => simp only [leBytes, List.length_cons, ih]

/-- Only the lowest digits of a number are written. -/
theorem leValue_leBytes (k n : Nat) : leValue (leBytes k n) = n % Nat.pow 256 k := by
  induction k generalizing n with
  | zero => exact (Nat.mod_one n).symm
  | succ k ih =>
      have hpow : Nat.pow 256 (k + 1) = 256 * Nat.pow 256 k := Nat.mul_comm _ _
      have hdigit : (UInt8.ofNat n).toNat = n % 256 := UInt8.toNat_ofNat'
      rw [leBytes, leValue, ih, hpow, Nat.mod_mul, hdigit]

theorem leValue_leBytes_of_lt {k n : Nat} (h : n < Nat.pow 256 k) :
    leValue (leBytes k n) = n := by
  rw [leValue_leBytes, Nat.mod_eq_of_lt h]

theorem leValue_lt (bs : Bytes) : leValue bs < Nat.pow 256 bs.length := by
  induction bs with
  | nil => exact Nat.one_pos
  | cons b bs ih =>
      have hb : b.toNat < 256 := b.toNat_lt
      have hpow : Nat.pow 256 (bs.length + 1) = 256 * Nat.pow 256 bs.length := Nat.mul_comm _ _
      simp only [leValue, List.length_cons, hpow]
      omega

/-- Bytes are the digits of the number they stand for. -/
theorem leBytes_leValue (bs : Bytes) : leBytes bs.length (leValue bs) = bs := by
  induction bs with
  | nil => rfl
  | cons b bs ih =>
      have hb : b.toNat < 256 := b.toNat_lt
      have hmod : (b.toNat + 256 * leValue bs) % 256 = b.toNat := by omega
      have hdiv : (b.toNat + 256 * leValue bs) / 256 = leValue bs := by omega
      have hfirst : UInt8.ofNat (b.toNat + 256 * leValue bs) = b := by
        rw [← UInt8.toNat_inj, UInt8.toNat_ofNat']
        exact hmod
      rw [leValue, List.length_cons, leBytes, hdiv, ih, hfirst]

namespace Bytes

theorem split?_append {n : Nat} {front : Bytes} (h : front.length = n) (rest : Bytes) :
    split? n (front ++ rest) = some (front, rest) := by
  induction front generalizing n with
  | nil =>
      subst h
      cases rest <;> rfl
  | cons b front ih =>
      subst h
      simp only [List.length_cons, List.cons_append, split?, ih rfl]

theorem eq_of_split? {n : Nat} {bs front rest : Bytes} (h : split? n bs = some (front, rest)) :
    bs = front ++ rest ∧ front.length = n := by
  induction n generalizing bs front with
  | zero =>
      obtain ⟨rfl, rfl⟩ := Prod.mk.inj (Option.some.inj h)
      exact ⟨rfl, rfl⟩
  | succ n ih =>
      cases bs with
      | nil => cases h
      | cons b bs =>
          rw [split?] at h
          split at h
          · next front' rest' hmore =>
              obtain ⟨rfl, rfl⟩ := Prod.mk.inj (Option.some.inj h)
              obtain ⟨rfl, rfl⟩ := ih hmore
              exact ⟨rfl, rfl⟩
          · cases h

theorem read?_append {k : Nat} {front : Bytes} (h : front.length = k) (rest : Bytes) :
    read? k (front ++ rest) = some (leValue front, rest) := by
  simp only [read?, split?_append h]

theorem read?_leBytes {k n : Nat} (h : n < Nat.pow 256 k) (rest : Bytes) :
    read? k (leBytes k n ++ rest) = some (n, rest) := by
  rw [read?_append (length_leBytes k n), leValue_leBytes_of_lt h]

/-- What is read as a number was the digits of that number. -/
theorem eq_of_read? {k n : Nat} {bs rest : Bytes} (h : read? k bs = some (n, rest)) :
    bs = leBytes k n ++ rest ∧ n < Nat.pow 256 k := by
  unfold read? at h
  split at h
  · next front rest' hsplit =>
      obtain ⟨rfl, rfl⟩ := Prod.mk.inj (Option.some.inj h)
      obtain ⟨rfl, rfl⟩ := eq_of_split? hsplit
      rw [leBytes_leValue]
      exact ⟨rfl, leValue_lt front⟩
  · cases h

theorem readWord?_append {front : Bytes} (h : front.length = 4) (rest : Bytes) :
    readWord? (front ++ rest) = some (UInt32.ofNat (leValue front), rest) := by
  simp only [readWord?, read?_append h]

theorem eq_of_readWord? {w : Word} {bs rest : Bytes} (h : readWord? bs = some (w, rest)) :
    bs = w.toBytes ++ rest := by
  unfold readWord? at h
  split at h
  · next n rest' hread =>
      obtain ⟨rfl, rfl⟩ := Prod.mk.inj (Option.some.inj h)
      obtain ⟨rfl, hn⟩ := eq_of_read? hread
      rw [Word.toBytes, UInt32.toNat_ofNat_of_lt' hn]
  · cases h

/-- A word survives being written and read. -/
theorem readWord?_toBytes (w : Word) (rest : Bytes) :
    readWord? (w.toBytes ++ rest) = some (w, rest) := by
  have hw : w.toNat < Nat.pow 256 4 := w.toNat_lt
  rw [Word.toBytes, readWord?_append (length_leBytes 4 _), leValue_leBytes_of_lt hw,
    UInt32.ofNat_toNat]

end Bytes

@[simp] theorem Word.length_toBytes (w : Word) : w.toBytes.length = 4 := length_leBytes 4 _

@[simp] theorem length_bytesOfWords (ws : List Word) :
    (bytesOfWords ws).length = slotSize * ws.length := by
  induction ws with
  | nil => rfl
  | cons w ws ih =>
      simp only [bytesOfWords, List.flatMap_cons, List.length_append, Word.length_toBytes,
        List.length_cons] at ih ⊢
      rw [ih, slotSize]
      omega

theorem wordsOfBytes_toBytes_append (w : Word) (rest : Bytes) :
    wordsOfBytes (w.toBytes ++ rest) = w :: wordsOfBytes rest := by
  have hw : w.toNat < Nat.pow 256 4 := w.toNat_lt
  have hv := leValue_leBytes_of_lt hw
  simp only [Word.toBytes, leBytes, List.cons_append, List.nil_append, wordsOfBytes] at hv ⊢
  rw [hv, UInt32.ofNat_toNat]

/-- The words of a segment survive being written and read. -/
theorem wordsOfBytes_bytesOfWords (ws : List Word) : wordsOfBytes (bytesOfWords ws) = ws := by
  induction ws with
  | nil => rfl
  | cons w ws ih =>
      rw [bytesOfWords, List.flatMap_cons, wordsOfBytes_toBytes_append]
      exact congrArg (w :: ·) ih

/-- Whole slots are the bytes of words. -/
theorem exists_bytesOfWords {n : Nat} {bs : Bytes} (h : bs.length = slotSize * n) :
    ∃ ws, bs = bytesOfWords ws ∧ ws.length = n := by
  induction n generalizing bs with
  | zero => exact ⟨[], List.eq_nil_of_length_eq_zero h, rfl⟩
  | succ n ih =>
      have hfront : (bs.take slotSize).length = 4 := by
        rw [List.length_take, h, slotSize]
        omega
      have hrest : (bs.drop slotSize).length = slotSize * n := by
        rw [List.length_drop, h, Nat.mul_succ, Nat.add_sub_cancel]
      obtain ⟨ws, hws, rfl⟩ := ih hrest
      have hword := Bytes.eq_of_readWord? (Bytes.readWord?_append hfront (bs.drop slotSize))
      rw [List.take_append_drop, hws] at hword
      exact ⟨UInt32.ofNat (leValue (bs.take slotSize)) :: ws, hword, rfl⟩

end GameScript
