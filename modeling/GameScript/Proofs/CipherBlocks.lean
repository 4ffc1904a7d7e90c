import GameScript.Proofs.CipherInverse

/-!
# The cipher works on each block by itself

A payload is enciphered in sixteen passes over all of its blocks. The passes can be exchanged with
the blocks: the result is one pass that applies the block cipher sixteen times to each block. So a
block of the result depends on one block of the payload only, the bytes after the last whole block
stay as they are, and a payload can be enciphered in pieces if all but the last are made of whole
blocks.
-/
namespace GameScript

theorem Aes.Column.exists_read? (bs : Bytes) (h : 4 ≤ bs.length) :
    ∃ x rest, read? bs = some (x, rest) ∧ bs.length = rest.length + 4 := by
  rcases bs with _ | ⟨a, _ | ⟨b, _ | ⟨c, _ | ⟨d, rest⟩⟩⟩⟩
  case cons.cons.cons.cons => exact ⟨⟨a, b, c, d⟩, rest, rfl, rfl⟩
  all_goals simp at h

namespace Payload

theorem length_lt_of_read? {bs : Bytes} (h : Aes.Block.read? bs = none) : bs.length < 16 := by
  rw [← Nat.not_le]
  intro hlen
  obtain ⟨p, bs₁, hp, h₁⟩ := Aes.Column.exists_read? bs (by omega)
  obtain ⟨q, bs₂, hq, h₂⟩ := Aes.Column.exists_read? bs₁ (by omega)
  obtain ⟨r, bs₃, hr, h₃⟩ := Aes.Column.exists_read? bs₂ (by omega)
  obtain ⟨s, bs₄, hs, -⟩ := Aes.Column.exists_read? bs₃ (by omega)
  simp [Aes.Block.read?, hp, hq, hr, hs] at h

def blockAt (bs : Bytes) (i : Nat) : Bytes := (bs.drop (16 * i)).take 16

theorem blockAt_zero (x : Aes.Block) (rest : Bytes) : blockAt (x.toBytes ++ rest) 0 = x.toBytes :=
  List.take_left' x.length_toBytes

theorem blockAt_succ (x : Aes.Block) (rest : Bytes) (i : Nat) :
    blockAt (x.toBytes ++ rest) (i + 1) = blockAt rest i := by
  have hplace : 16 * (i + 1) = x.toBytes.length + 16 * i := by
    rw [x.length_toBytes, Nat.mul_succ, Nat.add_comm]
  rw [blockAt, hplace, ← List.drop_drop, List.drop_left]
  rfl

/-- `g` applies `f` to each whole block by itself and changes nothing else. -/
structure Blockwise (f : Aes.Block → Aes.Block) (g : Bytes → Bytes) : Prop where
  length : ∀ bs, (g bs).length = bs.length
  block : ∀ bs i, i < bs.length / 16 →
    ∃ x : Aes.Block, blockAt bs i = x.toBytes ∧ blockAt (g bs) i = (f x).toBytes
  tail : ∀ bs, (g bs).drop (bs.length - bs.length % 16) = bs.drop (bs.length - bs.length % 16)
  append : ∀ front rest, 16 ∣ front.length → g (front ++ rest) = g front ++ g rest

variable (f : Aes.Block → Aes.Block)

theorem mapBlocks_block (bs : Bytes) (i : Nat) (h : i < bs.length / 16) :
    ∃ x : Aes.Block, blockAt bs i = x.toBytes ∧ blockAt (mapBlocks f bs) i = (f x).toBytes := by
  induction bs using blocks_induction generalizing i with
  | short bs hbs =>
      have hlen := length_lt_of_read? hbs
      omega
  | block x rest ih =>
      rw [List.length_append, x.length_toBytes] at h
      rw [mapBlocks_append]
      cases i with
      | zero => exact ⟨x, blockAt_zero x rest, blockAt_zero (f x) _⟩
      | succ i =>
          rw [blockAt_succ, blockAt_succ]
          exact ih i (by omega)

theorem mapBlocks_tail (bs : Bytes) :
    (mapBlocks f bs).drop (16 * (bs.length / 16)) = bs.drop (16 * (bs.length / 16)) := by
  induction bs using blocks_induction with
  | short bs hbs => rw [mapBlocks_none f hbs]
  | block x rest ih =>
      have hplace (y : Aes.Block) : 16 * ((x.toBytes ++ rest).length / 16) =
          y.toBytes.length + 16 * (rest.length / 16) := by
        rw [List.length_append, x.length_toBytes, y.length_toBytes]
        omega
      rw [mapBlocks_append]
      nth_rewrite 1 [hplace (f x)]
      rw [hplace x, ← List.drop_drop, ← List.drop_drop, List.drop_left, List.drop_left, ih]

theorem mapBlocks_append_of_dvd {front : Bytes} (h : 16 ∣ front.length) (rest : Bytes) :
    mapBlocks f (front ++ rest) = mapBlocks f front ++ mapBlocks f rest := by
  induction front using blocks_induction with
  | short front hfront =>
      have hlen := length_lt_of_read? hfront
      obtain rfl : front = [] := List.eq_nil_of_length_eq_zero (Nat.eq_zero_of_dvd_of_lt h hlen)
      rw [mapBlocks_none f hfront, List.nil_append, List.nil_append]
  | block x front ih =>
      rw [List.length_append, x.length_toBytes] at h
      rw [List.append_assoc, mapBlocks_append, ih (by omega), mapBlocks_append, List.append_assoc]

theorem mapBlocks_blockwise : Blockwise f (mapBlocks f) where
  length := length_mapBlocks f
  block := mapBlocks_block f
  tail bs := by
    have hplace : bs.length - bs.length % 16 = 16 * (bs.length / 16) := by omega
    rw [hplace, mapBlocks_tail]
  append _ rest h := mapBlocks_append_of_dvd f h rest

/-- Passes over all blocks are one pass that repeats the block cipher. -/
theorem repeat_mapBlocks (n : Nat) : Nat.repeat (mapBlocks f) n = mapBlocks (Nat.repeat f n) := by
  induction n with
  | zero => exact funext fun bs => (mapBlocks_id bs).symm
  | succ n ih =>
      funext bs
      have hstep : Nat.repeat (mapBlocks f) (n + 1) bs =
        mapBlocks f (Nat.repeat (mapBlocks f) n bs) := rfl
      rw [hstep, ih, mapBlocks_comp]
      rfl

/-- Encryption and decryption under a key undo each other for every byte string. Both keep the
length and the bytes after the last whole block; each block of the result is the corresponding block
alone, put through the block cipher sixteen times, so whole blocks can be split off. -/
theorem encrypt_blockwise (key : CipherKey) :
    (∀ bs, decrypt key (encrypt key bs) = bs) ∧ (∀ bs, encrypt key (decrypt key bs) = bs) ∧
      Blockwise (Nat.repeat key.schedule.encipher 16) (encrypt key) ∧
      Blockwise (Nat.repeat key.schedule.decipher 16) (decrypt key) := by
  have hencrypt : encrypt key = mapBlocks (Nat.repeat key.schedule.encipher 16) :=
    repeat_mapBlocks _ passes
  have hdecrypt : decrypt key = mapBlocks (Nat.repeat key.schedule.decipher 16) :=
    repeat_mapBlocks _ passes
  refine ⟨decrypt_encrypt key, encrypt_decrypt key, ?_, ?_⟩
  · rw [hencrypt]
    exact mapBlocks_blockwise _
  · rw [hdecrypt]
    exact mapBlocks_blockwise _

end Payload
end GameScript
