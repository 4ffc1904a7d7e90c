import GameScript.Container.Basic
import GameScript.Proofs.ByteStrings
import GameScript.Proofs.Outcomes

/-!
# Reading an image part by part

An image is read in parts, one behind the other: the words of the header, perhaps the size of the
payload, and the segments. What matters about the reader of a part is the same for all of them. The
bytes of its part are all that it needs, whatever follows, and on fewer bytes it fails and says what
is missing. Readers with this property can be run one after the other, and then the property holds
of the whole.
-/
namespace GameScript

/-- `read` takes exactly the bytes `bs`. What it gives depends on what follows them as `out` says,
and the first `n` of them alone give the error `fault n`. -/
structure Reads {ε β : Type} (read : Bytes → Except ε β) (bs : Bytes) (out : Bytes → Except ε β)
    (fault : Nat → ε) : Prop where
  whole : ∀ rest, read (bs ++ rest) = out rest
  cut : ∀ n, n < bs.length → read (bs.take n) = .error (fault n)

namespace Reads

variable {ε α β : Type} {read : Bytes → Except ε α} {bs cs : Bytes}

/-- A reader that takes nothing. -/
theorem done (out : Bytes → Except ε β) (fault : Nat → ε) : Reads out [] out fault where
  whole _ := rfl
  cut n hn := absurd hn (Nat.not_lt_zero n)

/-- Two parts, one behind the other. A cut falls into the first of them or into the second. -/
theorem bind {read : Bytes → Except ε (α × Bytes)} {next : α × Bytes → Except ε β} {v : α}
    {out : Bytes → Except ε β} {fault fault' : Nat → ε}
    (h : Reads read bs (fun rest => .ok (v, rest)) fault)
    (h' : Reads (fun rest => next (v, rest)) cs out fault') :
    Reads (fun bytes => read bytes >>= next) (bs ++ cs) out
      fun n => if n < bs.length then fault n else fault' (n - bs.length) where
  whole rest := by
    rw [List.append_assoc, h.whole, ok_bind]
    exact h'.whole rest
  cut n hn := by
    rw [List.length_append] at hn
    split
    · next hfirst =>
        rw [List.take_append_of_le_length (Nat.le_of_lt hfirst), h.cut n hfirst]
        rfl
    · next hfirst =>
        have htake : (bs ++ cs).take n = bs ++ cs.take (n - bs.length) := by
          rw [List.take_append, List.take_of_length_le (by omega)]
        rw [htake, h.whole, ok_bind]
        exact h'.cut (n - bs.length) (by omega)

/-- Two parts with one error for a cut in either of them. -/
theorem bindSame {read : Bytes → Except ε (α × Bytes)} {next : α × Bytes → Except ε β} {v : α}
    {out : Bytes → Except ε β} {e : ε} (h : Reads read bs (fun rest => .ok (v, rest)) fun _ => e)
    (h' : Reads (fun rest => next (v, rest)) cs out fun _ => e) :
    Reads (fun bytes => read bytes >>= next) (bs ++ cs) out fun _ => e := by
  simpa only [ite_self] using h.bind h'

theorem mapError {ε' : Type} {out : Bytes → Except ε α} {fault : Nat → ε}
    (h : Reads read bs out fault) (g : ε → ε') :
    Reads (fun bytes => (read bytes).mapError g) bs (fun rest => (out rest).mapError g) fun n =>
      g (fault n) where
  whole rest := by rw [h.whole]
  cut n hn := by rw [h.cut n hn]; rfl

theorem congr {out : Bytes → Except ε α} {fault fault' : Nat → ε} (h : Reads read bs out fault)
    (hfault : ∀ n, fault n = fault' n) : Reads read bs out fault' := by
  rwa [← funext hfault]

end Reads

/-- Fewer bytes than asked for. -/
theorem Bytes.split?_of_lt {n : Nat} {bs : Bytes} (h : bs.length < n) : bs.split? n = none := by
  cases hsplit : bs.split? n with
  | none => rfl
  | some r =>
      obtain ⟨rfl, hlen⟩ : bs = r.1 ++ r.2 ∧ r.1.length = n := eq_of_split? hsplit
      rw [List.length_append] at h
      omega

namespace Container

/-- What is missing from segments of these sizes, one behind the other, if only `n` bytes are
there. -/
def shortageIn : List (String × Nat) → Nat → Shortage
  | [], _ => .field
  | (what, size) :: rest, n => if n < size then .segment what size n else shortageIn rest (n - size)

/-- The same if `head` bytes of fields stand before the segments. -/
def shortageAfter (head : Nat) (sizes : List (String × Nat)) (n : Nat) : Shortage :=
  if n < head then .field else shortageIn sizes (n - head)

theorem shortageAfter_zero (sizes : List (String × Nat)) (n : Nat) :
    shortageAfter 0 sizes n = shortageIn sizes n := if_neg (Nat.not_lt_zero n)

/-- Fields and what is read after them. -/
theorem fields_bind_reads {ε α β : Type} (f : Shortage → ε) {read : Bytes → Except ε (α × Bytes)}
    {next : α × Bytes → Except ε β} {v : α} {bs cs : Bytes} {out : Bytes → Except ε β}
    {k head : Nat} {sizes : List (String × Nat)} (hlen : bs.length = k)
    (h : Reads read bs (fun rest => .ok (v, rest)) fun _ => f .field)
    (h' : Reads (fun rest => next (v, rest)) cs out fun n => f (shortageAfter head sizes n)) :
    Reads (fun bytes => read bytes >>= next) (bs ++ cs) out fun n =>
      f (shortageAfter (k + head) sizes n) := by
  refine (h.bind h').congr fun n => ?_
  rw [hlen, ← apply_ite f]
  refine congrArg f ?_
  unfold shortageAfter
  split
  · next hn => rw [if_pos (by omega)]
  · split
    · next hn => rw [if_pos (by omega)]
    · next hn => rw [if_neg (by omega), Nat.sub_sub]

theorem segment_reads (what : String) {n : Nat} {front : Bytes} (h : front.length = n) :
    Reads (segment what n) front (fun rest => .ok (front, rest)) fun left =>
      .truncated (.segment what n left) where
  whole rest := by rw [segment, Bytes.split?_append h rest]
  cut k hk := by
    have hlen : (front.take k).length = k := List.length_take_of_le (Nat.le_of_lt hk)
    rw [segment, Bytes.split?_of_lt (by omega), hlen]

/-- A segment and what is read after it. -/
theorem segment_bind_reads {what : String} {n : Nat} {front rest : Bytes} {β : Type}
    {next : Bytes × Bytes → Except FormatError β} {out : Bytes → Except FormatError β}
    {sizes : List (String × Nat)} (h : front.length = n)
    (h' : Reads (fun bytes => next (front, bytes)) rest out fun k =>
      .truncated (shortageIn sizes k)) :
    Reads (fun bytes => segment what n bytes >>= next) (front ++ rest) out fun k =>
      .truncated (shortageIn ((what, n) :: sizes) k) := by
  refine ((segment_reads what h).bind h').congr fun k => ?_
  rw [h, shortageIn]
  split <;> rfl

theorem Header.word_reads (w : Word) :
    Reads word w.toBytes (fun rest => .ok (w, rest)) fun _ => .truncated .field where
  whole rest := by rw [word, Bytes.readWord?_toBytes]
  cut n hn := by
    have hshort : (w.toBytes.take n).length < 4 := by
      rw [Word.length_toBytes] at hn
      exact Nat.lt_of_le_of_lt (List.length_take_le n _) hn
    rw [word, Bytes.readWord?, Bytes.read?, Bytes.split?_of_lt hshort]

/-- A word and the segments after it. -/
theorem Header.word_bind_reads {w : Word} {bs : Bytes} {β : Type}
    {next : Word × Bytes → Except FormatError β} {out : Bytes → Except FormatError β}
    {sizes : List (String × Nat)}
    (h : Reads (fun rest => next (w, rest)) bs out fun n => .truncated (shortageIn sizes n)) :
    Reads (fun bytes => word bytes >>= next) (w.toBytes ++ bs) out fun n =>
      .truncated (shortageAfter slotSize sizes n) := by
  have h' := h.congr fun n => congrArg FormatError.truncated (shortageAfter_zero sizes n).symm
  exact fields_bind_reads FormatError.truncated w.length_toBytes (word_reads w) h'

end Container
end GameScript
