import Mathlib.Data.Finite.Prod
import Mathlib.Data.Fintype.EquivFin
import GameScript.Cipher.Payload

/-!
# Deciphering undoes enciphering

Each step of a round is undone by its partner: the substitution by the inverse table, the rows by
moving them back, a round key by adding it again, and the mixing of columns because multiplication
by `x` is linear over exclusive or. Rounds, blocks and passes then follow by induction. There are
finitely many blocks, so enciphering undoes deciphering as well. What the cipher hides is not a
subject here.
-/
namespace GameScript
namespace Aes

/-- The two tables undo each other, entry by entry. -/
theorem invSBox_sBox :
    (sBox.toList.zipIdx.all fun (s, n) => invSBox.toList[s.toNat]? == some (UInt8.ofNat n)) =
      true := by
  decide +kernel

theorem unsubstitute_substitute (b : UInt8) : unsubstitute (substitute b) = b := by
  have hcount : sBox.toList.length = 256 := by decide +kernel
  have hsize : b.toNat < sBox.toList.length := by
    rw [hcount]
    exact UInt8.toNat_lt b
  have hmem : (sBox.toList[b.toNat], b.toNat) ∈ sBox.toList.zipIdx := by
    rw [List.mem_zipIdx_iff_getElem?]
    exact List.getElem?_eq_getElem hsize
  have hentry := List.all_eq_true.mp invSBox_sBox _ hmem
  have hsub : substitute b = sBox.toList[b.toNat] := by
    rw [substitute, Array.getD_eq_getD_getElem?, ← Array.getElem?_toList,
      List.getElem?_eq_getElem hsize]
    rfl
  rw [hsub, unsubstitute, Array.getD_eq_getD_getElem?, ← Array.getElem?_toList]
  simp only [beq_iff_eq] at hentry
  rw [hentry, UInt8.ofNat_toNat]
  rfl

/-- What `double` adds to bring a product back below degree eight. -/
def reduction (x : UInt8) : UInt8 := if x < 0x80 then 0 else 0x1B

theorem lt_iff_msb (x : UInt8) : x < 0x80 ↔ x.toBitVec.msb = false := by
  rw [BitVec.msb_eq_decide, UInt8.lt_iff_toNat_lt]
  simp

theorem reduction_xor (x y : UInt8) : reduction (x ^^^ y) = reduction x ^^^ reduction y := by
  unfold reduction
  simp only [lt_iff_msb, UInt8.toBitVec_xor, BitVec.msb_xor]
  cases x.toBitVec.msb with
  | false =>
      cases y.toBitVec.msb with
      | false => rfl
      | true => rfl
  | true =>
      cases y.toBitVec.msb with
      | false => rfl
      | true => rfl

theorem double_xor (x y : UInt8) : double (x ^^^ y) = double x ^^^ double y := by
  have hshift : (x ^^^ y) <<< 1 = (x <<< 1) ^^^ (y <<< 1) := UInt8.shiftLeft_xor
  calc double (x ^^^ y)
      = ((x <<< 1) ^^^ (y <<< 1)) ^^^ (reduction x ^^^ reduction y) := by
        rw [← hshift, ← reduction_xor]; rfl
    _ = ((x <<< 1) ^^^ reduction x) ^^^ ((y <<< 1) ^^^ reduction y) := by ac_rfl
    _ = double x ^^^ double y := rfl

theorem xor_xor_cancel (x y : UInt8) : x ^^^ (x ^^^ y) = y := by
  rw [← UInt8.xor_assoc, UInt8.xor_self, UInt8.zero_xor]

theorem xor_left_comm (x y z : UInt8) : x ^^^ (y ^^^ z) = y ^^^ (x ^^^ z) := by ac_rfl

namespace Column

theorem mix_add (x y : Column) : (x.add y).mix = x.mix.add y.mix := by
  simp only [mix, add, double_xor, mk.injEq]
  refine ⟨?_, ?_, ?_, ?_⟩ <;> ac_rfl

theorem unmix_add (x y : Column) : (x.add y).unmix = x.unmix.add y.unmix := by
  simp only [unmix, add, times9, times11, times13, times14, double_xor, mk.injEq]
  refine ⟨?_, ?_, ?_, ?_⟩ <;> ac_rfl

/-- Moving the bytes of a column commutes with multiplying by a circulant matrix. -/
theorem mix_rotate (x : Column) : x.rotate.mix = x.mix.rotate := by
  simp only [mix, rotate, mk.injEq]
  refine ⟨?_, ?_, ?_, ?_⟩ <;> ac_rfl

theorem unmix_rotate (x : Column) : x.rotate.unmix = x.unmix.rotate := by
  simp only [unmix, rotate, mk.injEq]
  refine ⟨?_, ?_, ?_, ?_⟩ <;> ac_rfl

/-- A column of one byte. Sums of moved columns of this kind are all columns. -/
def single (a : UInt8) : Column := ⟨a, 0, 0, 0⟩

theorem unmix_mix_single (a : UInt8) : (single a).mix.unmix = single a := by
  have hzero : double 0 = 0 := rfl
  simp only [single, mix, unmix, times9, times11, times13, times14, double_xor, hzero,
    UInt8.xor_assoc, UInt8.xor_zero, mk.injEq]
  refine ⟨?_, ?_, ?_, ?_⟩ <;>
    simp only [xor_left_comm, UInt8.xor_comm, xor_xor_cancel, UInt8.xor_self, UInt8.xor_zero]

theorem eq_add_single (x : Column) :
    x = (single x.a).add ((single x.b).rotate.rotate.rotate.add
      ((single x.c).rotate.rotate.add (single x.d).rotate)) := by
  simp only [single, rotate, add, UInt8.xor_zero, UInt8.zero_xor]

theorem unmix_mix (x : Column) : x.mix.unmix = x := by
  rw [eq_add_single x]
  simp only [mix_add, unmix_add, mix_rotate, unmix_rotate, unmix_mix_single]

theorem add_add (x k : Column) : (x.add k).add k = x := by
  simp only [add, UInt8.xor_assoc, UInt8.xor_self, UInt8.xor_zero]

theorem map_unsubstitute_map_substitute (x : Column) :
    (x.map substitute).map unsubstitute = x := by
  simp only [map, unsubstitute_substitute]

end Column

namespace Block

theorem unshiftRows_shiftRows (x : Block) : x.shiftRows.unshiftRows = x := rfl

theorem add_add (x k : Block) : (x.add k).add k = x := by
  simp only [add, Column.add_add]

theorem map_unmix_map_mix (x : Block) : (x.map Column.mix).map Column.unmix = x := by
  simp only [map, Column.unmix_mix]

theorem map_unsubstitute_map_substitute (x : Block) :
    (x.map (Column.map substitute)).map (Column.map unsubstitute) = x := by
  simp only [map, Column.map_unsubstitute_map_substitute]

theorem read?_toBytes_append (x : Block) (rest : Bytes) :
    read? (x.toBytes ++ rest) = some (x, rest) := rfl

theorem length_toBytes (x : Block) : x.toBytes.length = 16 := rfl

end Block

theorem cipherRounds_singleton (key x : Block) :
    cipherRounds [key] x = (x.map (Column.map substitute)).shiftRows.add key := rfl

theorem decipherRounds_singleton (key x : Block) :
    decipherRounds [key] x = (x.add key).unshiftRows.map (Column.map unsubstitute) := rfl

theorem cipherRounds_cons (key next : Block) (keys : List Block) (x : Block) :
    cipherRounds (key :: next :: keys) x = cipherRounds (next :: keys)
      (((x.map (Column.map substitute)).shiftRows.map Column.mix).add key) := rfl

theorem decipherRounds_cons (key next : Block) (keys : List Block) (x : Block) :
    decipherRounds (key :: next :: keys) x = (((decipherRounds (next :: keys) x).add key).map
      Column.unmix).unshiftRows.map (Column.map unsubstitute) := rfl

theorem decipherRounds_cipherRounds (keys : List Block) (x : Block) :
    decipherRounds keys (cipherRounds keys x) = x := by
  induction keys generalizing x with
  | nil => rfl
  | cons key keys ih =>
      cases keys with
      | nil =>
          rw [cipherRounds_singleton, decipherRounds_singleton, Block.add_add,
            Block.unshiftRows_shiftRows, Block.map_unsubstitute_map_substitute]
      | cons next keys =>
          rw [cipherRounds_cons, decipherRounds_cons, ih, Block.add_add, Block.map_unmix_map_mix,
            Block.unshiftRows_shiftRows, Block.map_unsubstitute_map_substitute]

theorem KeySchedule.decipher_encipher (k : KeySchedule) (x : Block) :
    k.decipher (k.encipher x) = x := by
  rw [decipher, encipher, decipherRounds_cipherRounds, Block.add_add]

instance finiteByte : Finite UInt8 :=
  .of_injective UInt8.toFin fun _ _ h => UInt8.toFin_inj.mp h

instance : Finite Column :=
  .of_injective (fun x => (x.a, x.b, x.c, x.d)) fun x y h => by
    cases x
    cases y
    simpa only [Column.mk.injEq, Prod.mk.injEq] using h

instance : Finite Block :=
  .of_injective (fun x => (x.p, x.q, x.r, x.s)) fun x y h => by
    cases x
    cases y
    simpa only [Block.mk.injEq, Prod.mk.injEq] using h

theorem KeySchedule.encipher_decipher (k : KeySchedule) (x : Block) :
    k.encipher (k.decipher x) = x := by
  have hleft : Function.LeftInverse k.decipher k.encipher := k.decipher_encipher
  have hsurjective : Function.Surjective k.encipher :=
    Finite.injective_iff_surjective.mp hleft.injective
  exact hleft.rightInverse_of_surjective hsurjective x

end Aes

namespace Payload

theorem eq_of_read? {bs rest : Bytes} {x : Aes.Block} (h : Aes.Block.read? bs = some (x, rest)) :
    bs = x.toBytes ++ rest := by
  have hcolumn {bs rest : Bytes} {x : Aes.Column} (h : Aes.Column.read? bs = some (x, rest)) :
      bs = x.toBytes ++ rest := by
    unfold Aes.Column.read? at h
    split at h
    · obtain ⟨rfl, rfl⟩ := Prod.mk.inj (Option.some.inj h)
      rfl
    · contradiction
  simp only [Aes.Block.read?, Option.bind_eq_bind, Option.bind_eq_some_iff, Prod.exists,
    Option.pure_def, Option.some.injEq, Prod.mk.injEq] at h
  obtain ⟨p, _, hp, q, _, hq, r, _, hr, s, _, hs, rfl, rfl⟩ := h
  rw [hcolumn hp, hcolumn hq, hcolumn hr, hcolumn hs]
  simp only [Aes.Block.toBytes, List.append_assoc]

theorem mapBlocks_none (f : Aes.Block → Aes.Block) {bs : Bytes} (h : Aes.Block.read? bs = none) :
    mapBlocks f bs = bs := by
  rw [mapBlocks]
  split
  · rfl
  · next heq => rw [h] at heq; cases heq

theorem mapBlocks_append (f : Aes.Block → Aes.Block) (x : Aes.Block) (rest : Bytes) :
    mapBlocks f (x.toBytes ++ rest) = (f x).toBytes ++ mapBlocks f rest := by
  rw [mapBlocks]
  split
  · next heq => rw [Aes.Block.read?_toBytes_append] at heq; cases heq
  · next heq =>
      rw [Aes.Block.read?_toBytes_append] at heq
      obtain ⟨rfl, rfl⟩ := Prod.mk.inj (Option.some.inj heq)
      rfl

/-- Induction over the whole blocks at the front of a byte string. -/
theorem blocks_induction {motive : Bytes → Prop}
    (short : ∀ bs, Aes.Block.read? bs = none → motive bs)
    (block : ∀ (x : Aes.Block) rest, motive rest → motive (x.toBytes ++ rest)) (bs : Bytes) :
    motive bs := by
  cases h : Aes.Block.read? bs with
  | none => exact short bs h
  | some r =>
      have hlen := length_of_read? h
      rw [eq_of_read? h]
      exact block r.1 r.2 (blocks_induction short block r.2)
termination_by bs.length

/-- Two passes are one pass with both functions. -/
theorem mapBlocks_comp (f g : Aes.Block → Aes.Block) (bs : Bytes) :
    mapBlocks g (mapBlocks f bs) = mapBlocks (fun x => g (f x)) bs := by
  induction bs using blocks_induction with
  | short bs hbs => rw [mapBlocks_none f hbs, mapBlocks_none g hbs, mapBlocks_none _ hbs]
  | block x rest ih => rw [mapBlocks_append, mapBlocks_append, mapBlocks_append, ih]

theorem mapBlocks_id (bs : Bytes) : mapBlocks (fun x => x) bs = bs := by
  induction bs using blocks_induction with
  | short bs hbs => rw [mapBlocks_none _ hbs]
  | block x rest ih => rw [mapBlocks_append, ih]

theorem mapBlocks_mapBlocks {f g : Aes.Block → Aes.Block} (h : ∀ x, g (f x) = x) (bs : Bytes) :
    mapBlocks g (mapBlocks f bs) = bs := by
  rw [mapBlocks_comp, funext h, mapBlocks_id]

theorem length_mapBlocks (f : Aes.Block → Aes.Block) (bs : Bytes) :
    (mapBlocks f bs).length = bs.length := by
  induction bs using blocks_induction with
  | short bs hbs => rw [mapBlocks_none f hbs]
  | block x rest ih =>
      rw [mapBlocks_append, List.length_append, List.length_append, ih,
        Aes.Block.length_toBytes, Aes.Block.length_toBytes]

theorem repeat_succ_apply {α : Type} (f : α → α) (n : Nat) (x : α) :
    Nat.repeat f (n + 1) x = Nat.repeat f n (f x) := by
  induction n with
  | zero => rfl
  | succ n ih => exact congrArg f ih

theorem repeat_repeat {α : Type} {f g : α → α} (h : ∀ x, g (f x) = x) (n : Nat) (x : α) :
    Nat.repeat g n (Nat.repeat f n x) = x := by
  induction n with
  | zero => rfl
  | succ n ih =>
      rw [repeat_succ_apply g]
      exact (congrArg (Nat.repeat g n) (h _)).trans ih

/-- Decrypting with the key undoes encrypting with it, also where the last block is not whole. -/
theorem decrypt_encrypt (key : CipherKey) (bs : Bytes) : decrypt key (encrypt key bs) = bs :=
  repeat_repeat (mapBlocks_mapBlocks key.schedule.decipher_encipher) passes bs

theorem encrypt_decrypt (key : CipherKey) (bs : Bytes) : encrypt key (decrypt key bs) = bs :=
  repeat_repeat (mapBlocks_mapBlocks key.schedule.encipher_decipher) passes bs

theorem length_repeat {f : Bytes → Bytes} (h : ∀ bs, (f bs).length = bs.length) (n : Nat)
    (bs : Bytes) : (Nat.repeat f n bs).length = bs.length := by
  induction n with
  | zero => rfl
  | succ n ih => exact (h _).trans ih

theorem length_encrypt (key : CipherKey) (bs : Bytes) : (encrypt key bs).length = bs.length :=
  length_repeat (length_mapBlocks _) passes bs

theorem length_decrypt (key : CipherKey) (bs : Bytes) : (decrypt key bs).length = bs.length :=
  length_repeat (length_mapBlocks _) passes bs

end Payload
end GameScript
