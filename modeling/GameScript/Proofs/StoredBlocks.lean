import GameScript.Deflate.Zlib
import GameScript.Proofs.ByteStrings
import GameScript.Proofs.Outcomes

/-!
# Stored blocks are expanded to what they hold

A container leaves open how payloads are compressed and asks only that nothing is lost. The
toolchain's own compression keeps to that. It stores a payload in blocks, so what has to be shown of
the expander is how it treats stored blocks: their first byte gives the flag of the last block and
the kind, and the rest of that byte is skipped. With the checksum, which fits into its four bytes,
expanding gives the payload.
-/
namespace GameScript
namespace Inflate

theorem append_eq (output : Output) (bs : Bytes) : append output bs = output ++ bs := by
  induction bs generalizing output with
  | nil => rw [append, List.foldl_nil, Array.appendList_nil]
  | cons b bs ih =>
      rw [append, List.foldl_cons, ← append, ih, Array.appendList_cons]

theorem appendList_appendList (output : Output) (xs ys : Bytes) :
    output ++ xs ++ ys = output ++ (xs ++ ys) := by
  apply Array.ext'
  simp only [Array.toList_appendList, List.append_assoc]

theorem size_append (output : Output) (bs : Bytes) :
    (append output bs).size = output.size + bs.length := by
  rw [append_eq, ← Array.length_toList, Array.toList_appendList, List.length_append,
    Array.length_toList]

theorem within_append {limit : Nat} {output : Output} {bs : Bytes}
    (h : output.size + bs.length ≤ limit) :
    within limit (append output bs) = .ok (output ++ bs) := by
  rw [within, size_append, if_pos h, append_eq]

/-- The first byte of a stored block: the flag of the last block, kind zero, and five bits to
skip. -/
theorem number?_storedHeader (last : Bool) (rest : Bytes) :
    ∃ bits bits', BitStream.number? 1 ⟨[], (if last then 1 else 0) :: rest⟩ =
        some (last.toNat, ⟨bits, rest⟩) ∧
      BitStream.number? 2 ⟨bits, rest⟩ = some (0, ⟨bits', rest⟩) := by
  cases last with
  | false => exact ⟨_, _, rfl, rfl⟩
  | true => exact ⟨_, _, rfl, rfl⟩

theorem stored_ok {limit : Nat} {output : Output} {bs : Bytes} (bits : List Bool) (rest : Bytes)
    (hsize : bs.length ≤ 65535) (hroom : output.size + bs.length ≤ limit) :
    stored limit ⟨bits, leBytes 2 bs.length ++ leBytes 2 (65535 - bs.length) ++ bs ++ rest⟩ output =
      .ok (⟨[], rest⟩, output ++ bs) := by
  have hlength : Bytes.read? 2
      (leBytes 2 bs.length ++ (leBytes 2 (65535 - bs.length) ++ (bs ++ rest))) =
        some (bs.length, leBytes 2 (65535 - bs.length) ++ (bs ++ rest)) :=
    Bytes.read?_leBytes (k := 2) (Nat.lt_succ_of_le hsize) _
  have hcomplement : Bytes.read? 2 (leBytes 2 (65535 - bs.length) ++ (bs ++ rest)) =
      some (65535 - bs.length, bs ++ rest) :=
    Bytes.read?_leBytes (k := 2) (Nat.lt_succ_of_le (Nat.sub_le _ _)) _
  have hsum : bs.length + (65535 - bs.length) = 65535 := Nat.add_sub_cancel' hsize
  simp only [stored, BitStream.aligned, List.append_assoc, hlength, hcomplement, orEnd, orStop,
    ok_bind, hsum, ne_eq, not_true_eq_false, if_false, Bytes.split?_append rfl rest,
    within_append hroom]
  rfl

theorem block_storedBlock {limit : Nat} {output : Output} {bs : Bytes} (last : Bool) (rest : Bytes)
    (hsize : bs.length ≤ 65535) (hroom : output.size + bs.length ≤ limit) :
    block limit ⟨[], Zlib.storedBlock last bs ++ rest⟩ output =
      .ok (last, ⟨[], rest⟩, output ++ bs) := by
  have hbytes : Zlib.storedBlock last bs ++ rest = (if last then 1 else 0) ::
      (leBytes 2 bs.length ++ leBytes 2 (65535 - bs.length) ++ bs ++ rest) := by
    simp only [Zlib.storedBlock, List.cons_append]
  obtain ⟨bits, bits', hlast, hkind⟩ := number?_storedHeader last
    (leBytes 2 bs.length ++ leBytes 2 (65535 - bs.length) ++ bs ++ rest)
  have hflag : decide (last.toNat = 1) = last := by
    cases last with
    | false => rfl
    | true => rfl
  rw [hbytes]
  simp only [block, hlast, hkind, orEnd, orStop, ok_bind, stored_ok bits' rest hsize hroom, hflag]
  rfl

/-- The blocks of a payload are expanded to it. Every block but the last one holds bytes, so the
fuel is enough when it exceeds their number. -/
theorem blocks_storedBlocks {limit fuel : Nat} {output : Output} (bs rest : Bytes)
    (hfuel : bs.length < fuel) (hroom : output.size + bs.length ≤ limit) :
    blocks limit fuel ⟨[], Zlib.storedBlocks bs ++ rest⟩ output =
      .ok (⟨[], rest⟩, output ++ bs) := by
  induction fuel generalizing bs output with
  | zero => contradiction
  | succ fuel ih =>
      rw [Zlib.storedBlocks]
      split
      · next hshort =>
          rw [blocks, block_storedBlock true rest hshort hroom]
          rfl
      · next hlong =>
          have htake : (bs.take Zlib.blockSize).length = Zlib.blockSize :=
            List.length_take_of_le (Nat.le_of_not_le hlong)
          have hdrop : (bs.drop Zlib.blockSize).length = bs.length - Zlib.blockSize :=
            List.length_drop
          simp only [Zlib.blockSize] at htake hdrop hlong
          have hfirst : block limit
              ⟨[], Zlib.storedBlock false (bs.take 65535) ++
                (Zlib.storedBlocks (bs.drop 65535) ++ rest)⟩ output =
              .ok (false, ⟨[], Zlib.storedBlocks (bs.drop 65535) ++ rest⟩,
                output ++ bs.take 65535) :=
            block_storedBlock false _ (by omega) (by omega)
          have hsize : (output ++ bs.take 65535).size = output.size + 65535 := by
            rw [← append_eq, size_append, htake]
          have hmore : blocks limit fuel ⟨[], Zlib.storedBlocks (bs.drop 65535) ++ rest⟩
              (output ++ bs.take 65535) =
                .ok (⟨[], rest⟩, output ++ bs.take 65535 ++ bs.drop 65535) :=
            ih (bs.drop 65535) (by omega) (by omega)
          rw [blocks, Zlib.blockSize, List.append_assoc, hfirst]
          simp only [ok_bind, Bool.false_eq_true, if_false]
          rw [hmore, appendList_appendList, List.take_append_drop]

end Inflate

namespace Zlib

theorem length_storedBlock (last : Bool) (bs : Bytes) :
    (storedBlock last bs).length = bs.length + 5 := by
  simp only [storedBlock, List.length_append, List.length_cons, length_leBytes]
  omega

theorem length_le_storedBlocks (bs : Bytes) : bs.length ≤ (storedBlocks bs).length := by
  fun_induction storedBlocks bs with
  | case1 bs hshort =>
      rw [length_storedBlock]
      omega
  | case2 bs hlong ih =>
      rw [List.length_append, length_storedBlock]
      simp only [List.length_drop, List.length_take] at ih ⊢
      omega

theorem foldl_adlerStep_lt (state : Nat × Nat) (bs : Bytes)
    (h : state.1 < adlerBase ∧ state.2 < adlerBase) :
    (bs.foldl adlerStep state).1 < adlerBase ∧ (bs.foldl adlerStep state).2 < adlerBase := by
  induction bs generalizing state with
  | nil => exact h
  | cons b bs ih => exact ih _ ⟨Nat.mod_lt _ (by decide), Nat.mod_lt _ (by decide)⟩

theorem adler32_lt (bs : Bytes) : adler32 bs < 0x100000000 := by
  have hstate := foldl_adlerStep_lt (1, 0) bs ⟨by decide, by decide⟩
  simp only [adlerBase] at hstate
  rw [adler32]
  simp only []
  omega

theorem lt_windowEnd (n : Nat) : n < windowEnd n := by
  simp only [windowEnd, windowSize]
  omega

/-- Expanding a compressed payload within any bound that it does not exceed gives the payload. -/
theorem expand_compress {limit : Nat} {bs : Bytes} (h : bs.length ≤ limit) :
    expand limit (compress bs) = .ok bs.toArray := by
  let checksum := (leBytes 4 (adler32 bs)).reverse
  have hlength : bs.length ≤ (storedBlocks bs ++ checksum).length := by
    rw [List.length_append]
    exact Nat.le_add_right_of_le (length_le_storedBlocks bs)
  have hroom : (#[] : Inflate.Output).size + bs.length ≤ limit := by
    simp only [List.size_toArray, List.length_nil]
    omega
  have hfuel : bs.length < BitStream.size ⟨[], storedBlocks bs ++ checksum⟩ + 1 := by
    simp only [BitStream.size, List.length_nil]
    omega
  have hinflate : inflate limit (storedBlocks bs ++ checksum) =
      .ok (bs.toArray, checksum) := by
    have hempty : (#[] : Inflate.Output) ++ bs = bs.toArray := by simp
    rw [inflate, Inflate.blocks_storedBlocks bs checksum hfuel hroom, hempty]
    rfl
  have hsplit : Bytes.split? 4 checksum = some (checksum, []) := by
    have hfour : checksum.length = 4 := by rw [List.length_reverse, length_leBytes]
    have := Bytes.split?_append hfour []
    rwa [List.append_nil] at this
  have hvalue : leValue checksum.reverse = adler32 bs := by
    rw [List.reverse_reverse]
    exact leValue_leBytes_of_lt (k := 4) (adler32_lt bs)
  have hheader : isHeader 0x78 0x01 = true := by decide
  have hbytes : compress bs = 0x78 :: 0x01 :: (storedBlocks bs ++ checksum) := rfl
  simp only [hbytes, expand, hheader, hinflate, Bool.not_true, Bool.false_eq_true, if_false,
    ok_bind, hsplit, hvalue, if_true]
  rfl

/-- The compression that the toolchain brings along is one that a container can rely on. -/
theorem stored_lossless : stored.Lossless := by
  intro bs limit hlimit
  have hroom : bs.length ≤ windowEnd (limit - 1) := by
    have := lt_windowEnd (limit - 1)
    omega
  have hexpand := expand_compress hroom
  have htake : bs.take limit = bs := List.take_of_length_le (Nat.le_of_lt hlimit)
  simp only [stored, expandFront, hexpand, htake]

end Zlib
end GameScript
