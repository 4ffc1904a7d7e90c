import GameScript.Cipher.Aes

/-!
# Encryption of payloads

A payload is enciphered block by block, and the whole of it sixteen times over. Bytes after the last
whole block are left as they are, so the length never changes.
-/
namespace GameScript

/-- An encryption key: thirty-two bytes. -/
structure CipherKey where
  bytes : Bytes
  size_eq : bytes.length = 32
deriving DecidableEq, Repr

namespace CipherKey

def size : Nat := 32

def ofBytes? (bs : Bytes) : Option CipherKey :=
  if h : bs.length = 32 then some ⟨bs, h⟩ else none

/-- The key at the start of a byte string that may be longer. -/
def ofFront? (bs : Bytes) : Option CipherKey := ofBytes? (bs.take size)

/-- The round keys of a key. A key has two blocks, so the default is never used. -/
def schedule (k : CipherKey) : Aes.KeySchedule :=
  match Aes.Block.read? k.bytes with
  | none => ⟨⟨⟨0, 0, 0, 0⟩, ⟨0, 0, 0, 0⟩, ⟨0, 0, 0, 0⟩, ⟨0, 0, 0, 0⟩⟩, []⟩
  | some (low, rest) =>
    match Aes.Block.read? rest with
    | none => ⟨low, []⟩
    | some (high, _) => .ofBlocks low high

end CipherKey

namespace Payload

/-- Reading a block uses up sixteen bytes. -/
theorem length_of_read? {bs rest : Bytes} {x : Aes.Block}
    (h : Aes.Block.read? bs = some (x, rest)) :
    bs.length = rest.length + 16 := by
  have column {bs rest : Bytes} {x : Aes.Column} (h : Aes.Column.read? bs = some (x, rest)) :
      bs.length = rest.length + 4 := by
    unfold Aes.Column.read? at h
    split at h
    · simp only [Option.some.injEq, Prod.mk.injEq] at h
      simp [← h.2]
    · simp at h
  simp only [Aes.Block.read?, Option.bind_eq_bind, Option.bind_eq_some_iff, Prod.exists,
    Option.pure_def, Option.some.injEq, Prod.mk.injEq] at h
  obtain ⟨_, _, hp, _, _, hq, _, _, hr, _, _, hs, _, rfl⟩ := h
  have := column hp
  have := column hq
  have := column hr
  have := column hs
  omega

def mapBlocks (f : Aes.Block → Aes.Block) (bs : Bytes) : Bytes :=
  match _h : Aes.Block.read? bs with
  | none => bs
  | some (x, rest) => (f x).toBytes ++ mapBlocks f rest
termination_by bs.length
decreasing_by have := length_of_read? _h; omega

/-- How often the whole payload is enciphered. -/
def passes : Nat := 16

def encrypt (key : CipherKey) (bs : Bytes) : Bytes :=
  let schedule := key.schedule
  Nat.repeat (mapBlocks schedule.encipher) passes bs

def decrypt (key : CipherKey) (bs : Bytes) : Bytes :=
  let schedule := key.schedule
  Nat.repeat (mapBlocks schedule.decipher) passes bs

end Payload

end GameScript
