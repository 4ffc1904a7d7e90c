import GameScript.Proofs.CipherInverse
import GameScript.Proofs.ImageParts
import GameScript.Proofs.StoredBlocks

/-!
# Images of containers are read back

Writing an image and reading it branch on the format separately: on the version word, on the size
word and on how the three segments are stored. The header is read back word by word. For the payload
there are two cases, segments stored one by one and segments packed together, and in both the reader
finds the ends of the segments from the counts in the header. How segments are compressed is left
open: what is asked of a compression is that it loses nothing. An image can be followed by other
bytes.
-/
namespace GameScript

theorem Format.ofMagic_magic (f : Format) : Format.ofMagic f.game f.magic = .ok f := by
  cases f <;> rfl

theorem Compression.Lossless.decompress_compress {z : Compression} (hz : z.Lossless) (bs : Bytes) :
    z.decompress bs.length (z.compress bs) = .ok bs := by
  rw [decompress, hz bs _ (Nat.lt_succ_self _)]
  exact if_pos rfl

namespace Container

theorem lengthWord_ok {what : String} {n : Nat} (h : n < 0x100000000) :
    lengthWord what n = .ok (UInt32.ofNat n) := if_pos h

theorem unlock_lock (key : Option CipherKey) (bs : Bytes) : unlock key (lock key bs) = bs := by
  cases key with
  | none => rfl
  | some key => exact Payload.decrypt_encrypt key bs

@[simp] theorem length_lock (key : Option CipherKey) (bs : Bytes) :
    (lock key bs).length = bs.length := by
  cases key with
  | none => rfl
  | some key => exact Payload.length_encrypt key bs

namespace Header

/-- What is left of a header in an image: a format without a version word loses the version. -/
def kept (h : Header) : Header :=
  { h with version := if h.format.hasVersion then h.version else noVersion }

/-- A header is read word by word, and a cut in any of them is a missing field. -/
theorem read_reads (h : Header) :
    Reads (read h.format.game) (bytesOfWords h.words) (fun rest => .ok (h.kept, rest)) fun _ =>
      .truncated .field := by
  rw [words, bytesOfWords, List.flatMap_append]
  simp only [List.flatMap_cons, List.flatMap_nil, List.append_nil, List.append_assoc]
  refine (word_reads _).bindSame ?_
  simp only [Format.ofMagic_magic, ok_bind]
  iterate 5
    refine (word_reads _).bindSame ?_
    dsimp only
  cases hversion : h.format.hasVersion with
  | false =>
      simp only [kept, hversion, Bool.false_eq_true, if_false]
      exact .done _ _
  | true =>
      simp only [kept, hversion, if_true, List.flatMap_cons, List.flatMap_nil]
      exact (word_reads _).bindSame (.done _ _)

theorem read_words (h : Header) (rest : Bytes) :
    read h.format.game (bytesOfWords h.words ++ rest) = .ok (h.kept, rest) :=
  h.read_reads.whole rest

end Header

/-- The container that an image of `c` stands for. -/
def kept (c : Container) : Container :=
  { c with version := if c.format.hasVersion then c.version else noVersion }

def headerOf (c : Container) : Header where
  format := c.format
  codeSize := UInt32.ofNat c.code.length
  staticsCount := UInt32.ofNat c.statics.length
  globalsCount := UInt32.ofNat c.globals.length
  argsCount := c.argsCount
  globalsSignature := c.globalsSignature
  version := c.version

def segments (c : Container) : Bytes := c.code ++ bytesOfWords c.statics ++ bytesOfWords c.globals

/-- The segments that an image of a container has behind its header, and their sizes. -/
def storedSizes (z : Compression) (c : Container) : List (String × Nat) :=
  if c.format.isCompressed then [("compressed payload", (z.compress c.segments).length)]
  else [("code", c.code.length), ("statics", slotSize * c.statics.length),
    ("globals", slotSize * c.globals.length)]

/-- The sizes that an image of a container has room for. -/
structure Fits (z : Compression) (c : Container) : Prop where
  code : c.code.length < 0x100000000
  statics : c.statics.length < 0x100000000
  globals : c.globals.length < 0x100000000
  packed : c.format.isCompressed = true → (z.compress c.segments).length < 0x100000000

/-- What the compressed segments of a container are read as. -/
def unpacked (z : Compression) (c : Container) : Except FormatError Container := do
  let data ← z.decompress c.segments.length (z.compress c.segments)
  let (code, data) := data.splitAt c.code.length
  let (statics, globals) := data.splitAt (slotSize * c.statics.length)
  return ofSegments c.headerOf.kept code statics globals

def readBack (z : Compression) (c : Container) : Except FormatError Container :=
  if c.format.isCompressed then c.unpacked z else .ok c.kept

theorem ofSegments_eq (c : Container) :
    ofSegments c.headerOf.kept c.code (bytesOfWords c.statics) (bytesOfWords c.globals) =
      c.kept := by
  simp only [ofSegments, wordsOfBytes_bytesOfWords]
  rfl

theorem unpacked_eq {z : Compression} (hz : z.Lossless) (c : Container) :
    c.unpacked z = .ok c.kept := by
  have hcode : c.segments.splitAt c.code.length =
      (c.code, bytesOfWords c.statics ++ bytesOfWords c.globals) := by
    rw [segments, List.append_assoc, List.splitAt_eq, List.take_left, List.drop_left]
  have hstatics : (bytesOfWords c.statics ++ bytesOfWords c.globals).splitAt
      (slotSize * c.statics.length) = (bytesOfWords c.statics, bytesOfWords c.globals) := by
    have hlen : slotSize * c.statics.length = (bytesOfWords c.statics).length := by
      rw [length_bytesOfWords]
    rw [hlen, List.splitAt_eq, List.take_left, List.drop_left]
  simp only [unpacked, hz.decompress_compress, ok_bind, hcode, hstatics, ofSegments_eq]
  rfl

/-- A compression that loses nothing gives back what is stored of a container. -/
theorem readBack_eq {z : Compression} (hz : z.Lossless) (c : Container) :
    c.readBack z = .ok c.kept := by
  rw [readBack, unpacked_eq hz, ite_self]

/-- Whatever a compression does, an image is not taken for one that is cut short. -/
theorem readBack_ne_truncated (z : Compression) (c : Container) (s : Shortage) :
    c.readBack z ≠ .error (.truncated s) := by
  intro h
  unfold readBack at h
  split at h
  · unfold unpacked Compression.decompress at h
    cases hfront : z.expandFront (c.segments.length + 1) (z.compress c.segments) with
    | error fault => simp [hfront, Except.mapError, bind, Except.bind] at h
    | ok output =>
        rw [hfront] at h
        simp only [Except.mapError, ok_bind] at h
        split at h <;> cases h
  · cases h

section RoundTrip

variable {z : Compression} {c : Container} (hfits : c.Fits z)
include hfits

theorem header_eq : c.header = .ok c.headerOf := by
  simp only [header, lengthWord_ok hfits.code, lengthWord_ok hfits.statics,
    lengthWord_ok hfits.globals, ok_bind]
  rfl

theorem codeSize_toNat : c.headerOf.kept.codeSize.toNat = c.code.length :=
  UInt32.toNat_ofNat_of_lt' hfits.code

theorem staticsCount_toNat : c.headerOf.kept.staticsCount.toNat = c.statics.length :=
  UInt32.toNat_ofNat_of_lt' hfits.statics

theorem globalsCount_toNat : c.headerOf.kept.globalsCount.toNat = c.globals.length :=
  UInt32.toNat_ofNat_of_lt' hfits.globals

theorem payloadSize_eq : c.headerOf.kept.payloadSize = c.segments.length := by
  simp only [Header.payloadSize, codeSize_toNat hfits, staticsCount_toNat hfits,
    globalsCount_toNat hfits, segments, List.length_append, length_bytesOfWords, slotSize]
  omega

theorem plainPayload_reads (key : Option CipherKey) :
    Reads (plainPayload c.headerOf.kept key)
      (lock key c.code ++ lock key (bytesOfWords c.statics) ++ lock key (bytesOfWords c.globals))
      (fun _ => .ok c.kept) fun n => .truncated (shortageIn [("code", c.code.length),
        ("statics", slotSize * c.statics.length), ("globals", slotSize * c.globals.length)] n) := by
  have hstatics : (lock key (bytesOfWords c.statics)).length = slotSize * c.statics.length := by
    rw [length_lock, length_bytesOfWords]
  have hglobals : (lock key (bytesOfWords c.globals)).length = slotSize * c.globals.length := by
    rw [length_lock, length_bytesOfWords]
  unfold plainPayload
  rw [codeSize_toNat hfits, staticsCount_toNat hfits, globalsCount_toNat hfits, List.append_assoc,
    ← List.append_nil (lock key (bytesOfWords c.globals))]
  refine segment_bind_reads (length_lock key c.code) ?_
  refine segment_bind_reads hstatics ?_
  refine segment_bind_reads hglobals ?_
  simp only [unlock_lock, ofSegments_eq]
  exact .done _ _

theorem packedPayload_reads (key : Option CipherKey) {size : Nat}
    (hsize : (lock key (z.compress c.segments)).length = size) :
    Reads (packedPayload z c.headerOf.kept key size) (lock key (z.compress c.segments))
      (fun _ => c.unpacked z) fun n =>
        .truncated (shortageIn [("compressed payload", size)] n) := by
  unfold packedPayload
  rw [← List.append_nil (lock key (z.compress c.segments))]
  refine segment_bind_reads hsize ?_
  simp only [unlock_lock, payloadSize_eq hfits, codeSize_toNat hfits, staticsCount_toNat hfits]
  exact .done _ _

/-- A payload is written as the size word, where the format has it, and the stored segments. -/
theorem payload_reads (key : Option CipherKey) :
    ∃ bs, c.payload z key = .ok bs ∧
      Reads (readPayload z c.headerOf.kept key) bs (fun _ => c.readBack z) fun n =>
        .truncated
          (shortageAfter (slotSize * c.format.hasPayloadSize.toNat) (c.storedSizes z) n) := by
  have hformat : c.headerOf.kept.format = c.format := rfl
  unfold readPayload readBack
  cases hcompressed : c.format.isCompressed with
  | true =>
      have hsize : c.format.hasPayloadSize = true := by
        rw [Format.hasPayloadSize, hcompressed, Bool.or_true]
      have hpacked := length_lock key (z.compress c.segments)
      have hlen := hfits.packed hcompressed
      have hnat : (UInt32.ofNat (z.compress c.segments).length).toNat =
          (z.compress c.segments).length := UInt32.toNat_ofNat_of_lt' hlen
      refine ⟨Word.toBytes (UInt32.ofNat (z.compress c.segments).length) ++
        lock key (z.compress c.segments), ?_, ?_⟩
      · simp only [payload, hcompressed, if_true]
        rw [← segments, hpacked, lengthWord_ok hlen]
        rfl
      · simp only [hformat, hsize, hcompressed, if_true, storedSizes, Bool.toNat_true, Nat.mul_one]
        refine Header.word_bind_reads ?_
        simp only [hnat]
        exact packedPayload_reads hfits key hpacked
  | false =>
      have hplain := plainPayload_reads hfits key
      simp only [hformat, hcompressed, Bool.false_eq_true, if_false, storedSizes]
      cases hsize : c.format.hasPayloadSize with
      | true =>
          refine ⟨Word.toBytes 0 ++ (lock key c.code ++ lock key (bytesOfWords c.statics) ++
            lock key (bytesOfWords c.globals)), ?_, ?_⟩
          · simp only [payload, hcompressed, hsize, Bool.false_eq_true, if_false, if_true,
              List.append_assoc]
            rfl
          · simp only [if_true, Bool.toNat_true, Nat.mul_one]
            exact Header.word_bind_reads hplain
      | false =>
          refine ⟨_, ?_, hplain.congr fun n => congrArg _ (shortageAfter_zero _ n).symm⟩
          simp only [payload, hcompressed, hsize, Bool.false_eq_true, if_false, List.nil_append]
          rfl

end RoundTrip

/-- The key that a format takes is always found when an encrypted format is given one. -/
theorem requiredKey_ok {format : Format} {key : Option CipherKey}
    (h : format.isEncrypted = true → key.isSome = true) :
    ∃ used, requiredKey format key = .ok used := by
  unfold requiredKey
  cases hencrypted : format.isEncrypted with
  | false => exact ⟨none, rfl⟩
  | true =>
      obtain ⟨k, rfl⟩ := Option.isSome_iff_exists.mp (h hencrypted)
      exact ⟨some k, rfl⟩

/-- In every format and with every compression that loses nothing, the image of a container that
fits is read back as that container, up to a version that the format does not store. The plain
format takes any key or none; bytes after the image do not matter. -/
theorem decode_encode {z : Compression} (hz : z.Lossless) {c : Container} {key : Option CipherKey}
    (hfits : c.Fits z) (hkey : c.format.isEncrypted = true → key.isSome = true) :
    ∃ image, c.encode z key = .ok image ∧ ∀ t, decode z (image ++ t) c.format.game key =
      .ok { c with version := if c.format.hasVersion then c.version else noVersion } := by
  obtain ⟨used, hused⟩ := requiredKey_ok hkey
  obtain ⟨bs, hpayload, hreads⟩ := payload_reads hfits used
  refine ⟨bytesOfWords c.headerOf.words ++ bs, ?_, fun t => ?_⟩
  · simp only [encode, hused, header_eq hfits, hpayload, Except.mapError, ok_bind]
    rfl
  · have hheader : Header.read c.format.game (bytesOfWords c.headerOf.words ++ (bs ++ t)) =
        .ok (c.headerOf.kept, bs ++ t) := Header.read_words c.headerOf (bs ++ t)
    have hformat : c.headerOf.kept.format = c.format := rfl
    have hpayload := (hreads.whole t).trans (readBack_eq hz c)
    simp only [decode, List.append_assoc, hheader, Except.mapError, ok_bind, hformat, hused,
      hpayload, kept]

theorem decode_encode_packed :
    let key : CipherKey := ⟨List.replicate 32 7, rfl⟩
    let c : Container := {
      format := .payne11Compressed
      code := [1, 2, 3]
      statics := [4]
      globals := [5, 6]
      version := 8 }
    c.Fits Zlib.stored ∧ ∃ image, c.encode Zlib.stored (some key) = .ok image ∧
      decode Zlib.stored (image ++ [9]) .payne (some key) = .ok c := by
  intro key c
  have hfits : c.Fits Zlib.stored :=
    ⟨by decide, by decide, by decide, fun _ => by decide +kernel⟩
  have hkey : c.format.isEncrypted = true → (some key).isSome = true := fun _ => rfl
  obtain ⟨image, himage, hdecode⟩ := decode_encode Zlib.stored_lossless hfits hkey
  exact ⟨hfits, image, himage, hdecode [9]⟩

end Container
end GameScript
