import GameScript.Proofs.ContainerCodec

/-!
# Reading an image loses nothing

Whatever bytes are accepted as an image in a format that is not compressed, writing the container
again gives back the bytes that were read. They are as many as the header says: the header itself,
the code, and four bytes for each static and global. Bytes after them are not part of the image, and
the size of the compressed payload, which such a format has no use for, is written as zero.
-/
namespace GameScript

theorem Format.of_ofMagic {game : Game} {magic : Word} {f : Format}
    (h : ofMagic game magic = .ok f) :
    f.magic = magic ∧ f.game = game := by
  unfold ofMagic at h
  split at h
  · next g hfind =>
      obtain rfl := Except.ok.inj h
      simpa using List.find?_some hfind
  · cases h

/-- The bytes before the first segment: six words, and words for the version and the size of the
payload where the format has them. -/
def Format.headSize (f : Format) : Nat :=
  slotSize * (6 + f.hasVersion.toNat + f.hasPayloadSize.toNat)

namespace Container

def wordAt (image : Bytes) (i : Nat) : Nat :=
  leValue ((image.drop (slotSize * i)).take slotSize)

/-- How many bytes an image has by its own account. -/
def imageSize (f : Format) (image : Bytes) : Nat :=
  f.headSize + wordAt image 1 + slotSize * (wordAt image 2 + wordAt image 3)

/-- An image in which the size of the payload, where the format has it, is zero. -/
def blankSize (f : Format) (image : Bytes) : Bytes :=
  if f.hasPayloadSize then
    image.take (f.headSize - slotSize) ++ Word.toBytes 0 ++ image.drop f.headSize
  else image

theorem wordAt_bytesOfWords {ws : List Word} {i : Nat} {w : Word} (h : ws[i]? = some w)
    (rest : Bytes) : wordAt (bytesOfWords ws ++ rest) i = w.toNat := by
  induction ws generalizing i with
  | nil => cases h
  | cons v ws ih =>
      have hbytes : bytesOfWords (v :: ws) ++ rest = v.toBytes ++ (bytesOfWords ws ++ rest) := by
        rw [bytesOfWords, List.flatMap_cons, List.append_assoc]
        rfl
      have hlen : v.toBytes.length = slotSize := v.length_toBytes
      rw [hbytes]
      cases i with
      | zero =>
          obtain rfl := Option.some.inj h
          have hv : v.toNat < Nat.pow 256 4 := v.toNat_lt
          rw [wordAt, Nat.mul_zero, List.drop_zero, ← hlen, List.take_left]
          exact leValue_leBytes_of_lt hv
      | succ i =>
          have hplace : slotSize * (i + 1) = v.toBytes.length + slotSize * i := by
            rw [hlen, Nat.mul_succ, Nat.add_comm]
          rw [wordAt, hplace, ← List.drop_drop, List.drop_left]
          exact ih h

/-! ## What the readers accept -/

theorem Header.of_word {bs rest : Bytes} {w : Word} (h : word bs = .ok (w, rest)) :
    bs = w.toBytes ++ rest := by
  unfold word at h
  split at h
  · next r hread =>
      obtain rfl := Except.ok.inj h
      exact Bytes.eq_of_readWord? hread
  · cases h

/-- Bytes that are read as a header are the words of that header. -/
theorem Header.of_read {game : Game} {bs rest : Bytes} {h : Header}
    (hread : read game bs = .ok (h, rest)) : bs = bytesOfWords h.words ++ rest := by
  obtain ⟨⟨magic, bs₁⟩, h₁, hread⟩ := bind_eq_ok.mp hread
  obtain ⟨format, hmagic, hread⟩ := bind_eq_ok.mp hread
  obtain ⟨⟨codeSize, bs₂⟩, h₂, hread⟩ := bind_eq_ok.mp hread
  obtain ⟨⟨staticsCount, bs₃⟩, h₃, hread⟩ := bind_eq_ok.mp hread
  obtain ⟨⟨globalsCount, bs₄⟩, h₄, hread⟩ := bind_eq_ok.mp hread
  obtain ⟨⟨argsCount, bs₅⟩, h₅, hread⟩ := bind_eq_ok.mp hread
  obtain ⟨⟨globalsSignature, bs₆⟩, h₆, hlast⟩ := bind_eq_ok.mp hread
  obtain rfl := (Format.of_ofMagic hmagic).1
  rw [of_word h₁, of_word h₂, of_word h₃, of_word h₄, of_word h₅, of_word h₆]
  cases hversion : format.hasVersion with
  | true =>
      simp only [hversion, if_true] at hlast
      obtain ⟨⟨version, bs₇⟩, h₇, hlast⟩ := bind_eq_ok.mp hlast
      obtain ⟨rfl, rfl⟩ := Prod.mk.inj (Except.ok.inj hlast)
      rw [of_word h₇]
      simp only [words, hversion, if_true, bytesOfWords, List.flatMap_append, List.flatMap_cons,
        List.flatMap_nil, List.append_assoc, List.nil_append]
  | false =>
      simp only [hversion, Bool.false_eq_true, if_false] at hlast
      obtain ⟨rfl, rfl⟩ := Prod.mk.inj (Except.ok.inj hlast)
      simp only [words, hversion, Bool.false_eq_true, if_false, bytesOfWords, List.flatMap_append,
        List.flatMap_cons, List.flatMap_nil, List.append_assoc, List.nil_append]

theorem of_segment {what : String} {n : Nat} {bs front rest : Bytes}
    (h : segment what n bs = .ok (front, rest)) : bs = front ++ rest ∧ front.length = n := by
  unfold segment at h
  split at h
  · next r hsplit =>
      obtain rfl := Except.ok.inj h
      exact Bytes.eq_of_split? hsplit
  · cases h

theorem lock_unlock (key : Option CipherKey) (bs : Bytes) : lock key (unlock key bs) = bs := by
  cases key with
  | none => rfl
  | some key => exact Payload.encrypt_decrypt key bs

theorem length_unlock (key : Option CipherKey) (bs : Bytes) :
    (unlock key bs).length = bs.length := by
  cases key with
  | none => rfl
  | some key => exact Payload.length_decrypt key bs

/-- A segment of whole words, decrypted, is the bytes of the words that are read from it. -/
theorem words_unlock (key : Option CipherKey) {bs : Bytes} {n : Nat}
    (h : bs.length = slotSize * n) :
    bytesOfWords (wordsOfBytes (unlock key bs)) = unlock key bs ∧
      (wordsOfBytes (unlock key bs)).length = n := by
  obtain ⟨ws, hws, hlen⟩ := exists_bytesOfWords ((length_unlock key bs).trans h)
  rw [hws, wordsOfBytes_bytesOfWords]
  exact ⟨rfl, hlen⟩

/-- The three segments of an image as they stand in it, with the sizes that its header gives. -/
structure Segments (h : Header) where
  code : Bytes
  statics : Bytes
  globals : Bytes
  code_length : code.length = h.codeSize.toNat
  statics_length : statics.length = slotSize * h.staticsCount.toNat
  globals_length : globals.length = slotSize * h.globalsCount.toNat

namespace Segments

variable {h : Header} (s : Segments h) (key : Option CipherKey)

def bytes : Bytes := s.code ++ s.statics ++ s.globals

def container : Container :=
  ofSegments h (unlock key s.code) (unlock key s.statics) (unlock key s.globals)

theorem length_bytes : s.bytes.length = h.payloadSize := by
  simp only [bytes, List.length_append, s.code_length, s.statics_length, s.globals_length,
    Header.payloadSize, Nat.mul_add, Nat.add_assoc]

theorem length_code : (s.container key).code.length = h.codeSize.toNat :=
  (length_unlock key s.code).trans s.code_length

theorem words_statics : bytesOfWords (s.container key).statics = unlock key s.statics ∧
    (s.container key).statics.length = h.staticsCount.toNat :=
  words_unlock key s.statics_length

theorem words_globals : bytesOfWords (s.container key).globals = unlock key s.globals ∧
    (s.container key).globals.length = h.globalsCount.toNat :=
  words_unlock key s.globals_length

theorem headerOf_container : (s.container key).headerOf = h := by
  simp only [headerOf, s.length_code key, (s.words_statics key).2, (s.words_globals key).2,
    UInt32.ofNat_toNat]
  rfl

theorem fits (z : Compression) (hformat : h.format.isCompressed = false) :
    (s.container key).Fits z where
  code := by
    rw [s.length_code key]
    exact h.codeSize.toNat_lt
  statics := by
    rw [(s.words_statics key).2]
    exact h.staticsCount.toNat_lt
  globals := by
    rw [(s.words_globals key).2]
    exact h.globalsCount.toNat_lt
  packed := fun hcompressed => absurd hcompressed (hformat ▸ Bool.false_ne_true)

/-- The segments are written as they were read. -/
theorem payload_container (z : Compression) (hformat : h.format.isCompressed = false) :
    (s.container key).payload z key =
      .ok ((if h.format.hasPayloadSize then Word.toBytes 0 else []) ++ s.bytes) := by
  have hc : (s.container key).format = h.format := rfl
  have hcode : (s.container key).code = unlock key s.code := rfl
  simp only [payload, hc, hcode, hformat, Bool.false_eq_true, if_false, (s.words_statics key).1,
    (s.words_globals key).1, lock_unlock, bytes, ← List.append_assoc]
  rfl

end Segments

/-- A payload that is read without decompression is the segments of its container, up to what
follows them. -/
theorem of_plainPayload {h : Header} {key : Option CipherKey} {bs : Bytes} {c : Container}
    (hread : plainPayload h key bs = .ok c) :
    ∃ (s : Segments h) (rest : Bytes), bs = s.bytes ++ rest ∧ c = s.container key := by
  obtain ⟨⟨code, bs₁⟩, h₁, hread⟩ := bind_eq_ok.mp hread
  obtain ⟨⟨statics, bs₂⟩, h₂, hread⟩ := bind_eq_ok.mp hread
  obtain ⟨⟨globals, rest⟩, h₃, hread⟩ := bind_eq_ok.mp hread
  obtain rfl := Except.ok.inj hread
  obtain ⟨rfl, hcode⟩ := of_segment h₁
  obtain ⟨rfl, hstatics⟩ := of_segment h₂
  obtain ⟨rfl, hglobals⟩ := of_segment h₃
  refine ⟨⟨code, statics, globals, hcode, hstatics, hglobals⟩, rest, ?_, rfl⟩
  simp only [Segments.bytes, List.append_assoc]

theorem format_of_packedPayload {z : Compression} {h : Header} {key : Option CipherKey} {size : Nat}
    {bs : Bytes} {c : Container} (hread : packedPayload z h key size bs = .ok c) :
    c.format = h.format := by
  obtain ⟨⟨packed, bs'⟩, -, hread⟩ := bind_eq_ok.mp hread
  obtain ⟨data, -, hread⟩ := bind_eq_ok.mp hread
  obtain rfl := Except.ok.inj hread
  rfl

/-- What stands between the header and the segments: the size of the payload, if the format has
it. -/
theorem of_readPayload {z : Compression} {h : Header} {key : Option CipherKey} {bs : Bytes}
    {c : Container} (hread : readPayload z h key bs = .ok c)
    (hformat : c.format.isCompressed = false) :
    ∃ (size : Bytes) (s : Segments h) (rest : Bytes), bs = size ++ (s.bytes ++ rest) ∧
      size.length = slotSize * h.format.hasPayloadSize.toNat ∧ c = s.container key := by
  cases hsize : h.format.hasPayloadSize with
  | true =>
      simp only [readPayload, hsize, if_true] at hread
      obtain ⟨⟨size, bs'⟩, hword, hread⟩ := bind_eq_ok.mp hread
      cases hcompressed : h.format.isCompressed with
      | true =>
          simp only [hcompressed, if_true] at hread
          rw [format_of_packedPayload hread, hcompressed] at hformat
          cases hformat
      | false =>
          simp only [hcompressed, Bool.false_eq_true, if_false] at hread
          obtain ⟨s, rest, rfl, rfl⟩ := of_plainPayload hread
          exact ⟨size.toBytes, s, rest, Header.of_word hword, size.length_toBytes, rfl⟩
  | false =>
      simp only [readPayload, hsize, Bool.false_eq_true, if_false] at hread
      obtain ⟨s, rest, rfl, rfl⟩ := of_plainPayload hread
      exact ⟨[], s, rest, rfl, rfl, rfl⟩

/-! ## The extent of an image -/

theorem Header.length_words (h : Header) : h.words.length = 6 + h.format.hasVersion.toNat := by
  cases hversion : h.format.hasVersion <;> simp [words, hversion]

theorem Header.length_head (h : Header) {size : Bytes}
    (hsize : size.length = slotSize * h.format.hasPayloadSize.toNat) :
    (bytesOfWords h.words ++ size).length = h.format.headSize := by
  rw [List.length_append, length_bytesOfWords, h.length_words, hsize, Format.headSize,
    ← Nat.mul_add]

section Image

variable {h : Header} (rest : Bytes)

theorem wordAt_codeSize : wordAt (bytesOfWords h.words ++ rest) 1 = h.codeSize.toNat :=
  wordAt_bytesOfWords rfl rest

theorem wordAt_staticsCount : wordAt (bytesOfWords h.words ++ rest) 2 = h.staticsCount.toNat :=
  wordAt_bytesOfWords rfl rest

theorem wordAt_globalsCount : wordAt (bytesOfWords h.words ++ rest) 3 = h.globalsCount.toNat :=
  wordAt_bytesOfWords rfl rest

theorem imageSize_words :
    imageSize h.format (bytesOfWords h.words ++ rest) = h.format.headSize + h.payloadSize := by
  rw [imageSize, wordAt_codeSize, wordAt_staticsCount, wordAt_globalsCount, Header.payloadSize,
    Nat.add_assoc]

theorem blankSize_head {size : Bytes}
    (hsize : size.length = slotSize * h.format.hasPayloadSize.toNat) :
    blankSize h.format (bytesOfWords h.words ++ size ++ rest) =
      bytesOfWords h.words ++
        ((if h.format.hasPayloadSize then Word.toBytes 0 else []) ++ rest) := by
  have hhead := h.length_head hsize
  cases hhas : h.format.hasPayloadSize with
  | true =>
      have hwords : h.format.headSize - slotSize = (bytesOfWords h.words).length := by
        rw [← hhead, List.length_append, hsize, hhas, Bool.toNat_true, Nat.mul_one,
          Nat.add_sub_cancel]
      simp only [blankSize, hhas, if_true]
      rw [hwords, ← hhead, List.drop_left, List.append_assoc (bytesOfWords h.words),
        List.take_left, List.append_assoc]
  | false =>
      rw [hhas] at hsize
      obtain rfl := List.eq_nil_of_length_eq_zero hsize
      simp only [blankSize, hhas, Bool.false_eq_true, if_false, List.append_nil, List.nil_append]

end Image

/-- Every byte string that is read as an image in a format without compression is at least as long
as its header says, and writing the container gives back exactly those bytes, with the unused
payload size put to zero. The segments have the lengths that the header gives. -/
theorem encode_decode {z : Compression} {bs : Bytes} {game : Game} {key : Option CipherKey}
    {c : Container} (hdecode : decode z bs game key = .ok c)
    (hformat : c.format.isCompressed = false) :
    imageSize c.format bs ≤ bs.length ∧
      c.encode z key = .ok (blankSize c.format (bs.take (imageSize c.format bs))) ∧
      c.code.length = wordAt bs 1 ∧ c.statics.length = wordAt bs 2 ∧
      c.globals.length = wordAt bs 3 := by
  obtain ⟨⟨h, bs'⟩, hread, hdecode⟩ := bind_eq_ok.mp hdecode
  obtain ⟨used, hused, hdecode⟩ := bind_eq_ok.mp hdecode
  obtain ⟨size, s, rest, rfl, hsize, rfl⟩ := of_readPayload (mapError_eq_ok hdecode) hformat
  obtain rfl := Header.of_read (mapError_eq_ok hread)
  have hplain : h.format.isCompressed = false := hformat
  have himage : bytesOfWords h.words ++ (size ++ (s.bytes ++ rest)) =
      bytesOfWords h.words ++ size ++ s.bytes ++ rest := by
    simp only [List.append_assoc]
  have hlen : (bytesOfWords h.words ++ size ++ s.bytes).length =
      imageSize h.format (bytesOfWords h.words ++ (size ++ (s.bytes ++ rest))) := by
    rw [imageSize_words, List.length_append, h.length_head hsize, s.length_bytes]
  have hencode : (s.container used).encode z key =
      .ok (bytesOfWords h.words ++
        ((if h.format.hasPayloadSize then Word.toBytes 0 else []) ++ s.bytes)) := by
    have hrequired : requiredKey (s.container used).format key = .ok used := mapError_eq_ok hused
    simp only [encode, hrequired, header_eq (s.fits used z hplain), s.headerOf_container used,
      s.payload_container used z hplain, Except.mapError, ok_bind]
    rfl
  have hc : (s.container used).format = h.format := rfl
  refine ⟨?_, ?_, ?_, ?_, ?_⟩
  · rw [hc, ← hlen, himage]
    exact (List.sublist_append_left _ rest).length_le
  · rw [hc, hencode, ← hlen, himage, List.take_left, blankSize_head s.bytes hsize]
  · rw [s.length_code, wordAt_codeSize]
  · rw [(s.words_statics used).2, wordAt_staticsCount]
  · rw [(s.words_globals used).2, wordAt_globalsCount]

/-- An encrypted image with seventeen bytes of code, a payload size that is not zero and a byte
after the globals. -/
theorem encode_decode_partialBlock :
    let key : CipherKey := ⟨List.replicate 32 7, rfl⟩
    let head := bytesOfWords [0x11726373, 17, 1, 2, 3, 4, 5]
    let body := List.replicate 17 1 ++ bytesOfWords [6, 7, 8]
    let c : Container := {
      format := .payne11Encrypted
      code := Payload.decrypt key (List.replicate 17 1)
      statics := wordsOfBytes (Payload.decrypt key (bytesOfWords [6]))
      globals := wordsOfBytes (Payload.decrypt key (bytesOfWords [7, 8]))
      argsCount := 3
      globalsSignature := 4
      version := 5 }
    let image := head ++ Word.toBytes 41 ++ body ++ [9]
    decode Zlib.stored image .payne (some key) = .ok c ∧
      c.encode Zlib.stored (some key) = .ok (head ++ Word.toBytes 0 ++ body) := by
  intro key head body c image
  have hdecode : decode Zlib.stored image .payne (some key) = .ok c := rfl
  have hblank : blankSize .payne11Encrypted (image.take (imageSize .payne11Encrypted image)) =
      head ++ Word.toBytes 0 ++ body := by
    decide +kernel
  refine ⟨hdecode, ?_⟩
  rw [← hblank]
  exact (encode_decode hdecode rfl).2.1

end Container
end GameScript
