import GameScript.Proofs.ContainerReencode

/-!
# Images that are cut short

An image that ends before its time is reported as such, wherever the cut is and in every format. The
error tells where: in a field before the segments, or in a segment, with the bytes that it needs and
the bytes that are left of it. No cut is taken for another error, or for a shorter container.
-/
namespace GameScript
namespace Container

theorem lt_of_lengthWord {what : String} {n : Nat} {w : Word} (h : lengthWord what n = .ok w) :
    n < 0x100000000 := by
  unfold lengthWord at h
  split at h
  · assumption
  · cases h

/-- Only what fits into an image is written. -/
theorem fits_of_encode {z : Compression} {c : Container} {key : Option CipherKey} {image : Bytes}
    (h : c.encode z key = .ok image) :
    c.Fits z ∧ ∃ used, requiredKey c.format key = .ok used := by
  obtain ⟨used, hused, h⟩ := bind_eq_ok.mp h
  obtain ⟨header, hheader, h⟩ := bind_eq_ok.mp h
  obtain ⟨payload, hpayload, -⟩ := bind_eq_ok.mp h
  obtain ⟨_, hcode, hheader⟩ := bind_eq_ok.mp (mapError_eq_ok hheader)
  obtain ⟨_, hstatics, hheader⟩ := bind_eq_ok.mp hheader
  obtain ⟨_, hglobals, -⟩ := bind_eq_ok.mp hheader
  refine ⟨⟨lt_of_lengthWord hcode, lt_of_lengthWord hstatics, lt_of_lengthWord hglobals, ?_⟩, used,
    mapError_eq_ok hused⟩
  intro hcompressed
  have hpayload := mapError_eq_ok hpayload
  simp only [Container.payload, hcompressed, if_true] at hpayload
  obtain ⟨_, hsize, -⟩ := bind_eq_ok.mp hpayload
  rw [← length_lock used]
  exact lt_of_lengthWord hsize

/-- The bytes before the segments are the words of the header and the size of the payload. -/
theorem headSize_eq (c : Container) : c.format.headSize =
    (bytesOfWords c.headerOf.words).length + slotSize * c.format.hasPayloadSize.toNat := by
  have hformat : c.headerOf.format = c.format := rfl
  rw [length_bytesOfWords, Header.length_words, hformat, ← Nat.mul_add, Format.headSize]

/-- An image is taken as a whole: header, payload size and segments. -/
theorem decode_reads {z : Compression} {c : Container} {key used : Option CipherKey}
    (hfits : c.Fits z) (hused : requiredKey c.format key = .ok used) :
    ∃ image, c.encode z key = .ok image ∧
      Reads (fun bs => decode z bs c.format.game key) image
        (fun _ => (c.readBack z).mapError Failure.format) fun n =>
          Failure.format (.truncated (shortageAfter c.format.headSize (c.storedSizes z) n)) := by
  obtain ⟨bs, hpayload, hreads⟩ := payload_reads hfits used
  refine ⟨bytesOfWords c.headerOf.words ++ bs, ?_, ?_⟩
  · simp only [encode, hused, header_eq hfits, hpayload, Except.mapError, ok_bind]
    rfl
  · have hformat : c.headerOf.kept.format = c.format := rfl
    have hhead := c.headerOf.read_reads.mapError Failure.format
    rw [c.headSize_eq]
    unfold decode
    refine fields_bind_reads (fun s => Failure.format (.truncated s)) rfl hhead ?_
    simp only [hformat, hused, Except.mapError, ok_bind]
    exact hreads.mapError Failure.format

/-- Every strict prefix of an image, down to the empty one, is refused as truncated, and the error
names the part in which the prefix ends. The image itself is not. This needs nothing of the
compression. -/
theorem decode_cut {z : Compression} {c : Container} {key : Option CipherKey} {image : Bytes}
    (h : c.encode z key = .ok image) :
    (∀ front, front <+: image → front ≠ image → decode z front c.format.game key =
      .error (.format (.truncated
        (shortageAfter c.format.headSize (c.storedSizes z) front.length)))) ∧
    ∀ s, decode z image c.format.game key ≠ .error (.format (.truncated s)) := by
  obtain ⟨hfits, used, hused⟩ := fits_of_encode h
  obtain ⟨image', hencode, hreads⟩ := decode_reads hfits hused
  obtain rfl := Except.ok.inj (h.symm.trans hencode)
  refine ⟨fun front hfront hne => ?_, fun s htruncated => ?_⟩
  · have hlen : front.length < image.length := by
      refine Nat.lt_of_le_of_ne hfront.length_le fun heq => hne ?_
      exact hfront.eq_of_length heq
    have hcut := hreads.cut front.length hlen
    rwa [← List.prefix_iff_eq_take.mp hfront] at hcut
  · have hwhole := hreads.whole []
    rw [List.append_nil, htruncated] at hwhole
    cases hback : c.readBack z with
    | ok c' =>
        rw [hback] at hwhole
        cases hwhole
    | error e =>
        rw [hback] at hwhole
        obtain rfl := Failure.format.inj (Except.error.inj hwhole)
        exact readBack_ne_truncated z c s hback

/-- An encrypted image of 61 bytes, cut in the payload size and after eight bytes of the code. -/
theorem decode_cut_partialBlock :
    let key : CipherKey := ⟨List.replicate 32 7, rfl⟩
    let c : Container := {
      format := .payne11Encrypted
      code := List.replicate 17 1
      statics := [6]
      globals := [7, 8]
      version := 5 }
    ∃ image, c.encode Zlib.stored (some key) = .ok image ∧ image.length = 61 ∧
      decode Zlib.stored (image.take 30) .payne (some key) =
        .error (.format (.truncated .field)) ∧
      decode Zlib.stored (image.take 40) .payne (some key) =
        .error (.format (.truncated (.segment "code" 17 8))) := by
  intro key c
  let image := bytesOfWords [0x11726373, 17, 1, 2, 0, 0, 5] ++ (Word.toBytes 0 ++
    Payload.encrypt key c.code ++ Payload.encrypt key (bytesOfWords [6]) ++
    Payload.encrypt key (bytesOfWords [7, 8]))
  have hencode : c.encode Zlib.stored (some key) = .ok image := rfl
  have hlen : image.length = 61 := by
    simp only [image, List.length_append, length_bytesOfWords, Word.length_toBytes,
      Payload.length_encrypt]
    rfl
  have hcut (n : Nat) (hn : n < 61) : decode Zlib.stored (image.take n) .payne (some key) =
      .error (.format (.truncated
        (shortageAfter c.format.headSize (c.storedSizes Zlib.stored) n))) := by
    have htake : (image.take n).length = n := List.length_take_of_le (by omega)
    have hne : image.take n ≠ image := by
      intro heq
      rw [heq] at htake
      omega
    have herror := (decode_cut hencode).1 _ (List.take_prefix n image) hne
    rwa [htake] at herror
  exact ⟨image, hencode, hlen, hcut 30 (by decide), hcut 40 (by decide)⟩

end Container
end GameScript
