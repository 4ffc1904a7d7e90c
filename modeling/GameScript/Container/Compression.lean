import GameScript.Bytes
import GameScript.Error

/-!
# Compression of payloads

Payloads are compressed and expanded by a library, and a container uses two functions of it. An
image says how long its payload is before compression, so a stream is read only up to one byte more
than that: whatever else a stream asks for is never produced.
-/
namespace GameScript

/-- A way to compress payloads. The front of an expanded stream is its first `limit` bytes, or all
of them if it has fewer; a fault counts only if it is met before that. -/
structure Compression where
  compress : Bytes → Bytes
  expandFront : (limit : Nat) → Bytes → Except StreamFault Bytes

namespace Compression

/-- Expanding what was compressed gives the payload. -/
def Lossless (z : Compression) : Prop :=
  ∀ bs limit, bs.length < limit → z.expandFront limit (z.compress bs) = .ok bs

/-- Expand a payload that should have `expected` bytes. Of a payload that is too long, only the
first byte too many counts. -/
def decompress (z : Compression) (expected : Nat) (bs : Bytes) : Except FormatError Bytes := do
  let output ← (z.expandFront (expected + 1) bs).mapError .compression
  if output.length = expected then return output
  else throw (.lengthMismatch "decompressed payload" expected output.length)

end Compression
end GameScript
