import GameScript.Container.Compression
import GameScript.Deflate.Inflate

/-!
# Compressed streams

A stream is a two-byte header, compressed blocks, and a checksum of the expanded bytes. Writing
stores the bytes in blocks as they are, which every reader accepts; reading expands every kind of
block. With the two the toolchain runs without the library that its containers leave open.
-/
namespace GameScript
namespace Zlib

/-- The modulus of the checksum. -/
def adlerBase : Nat := 65521

/-- One step of the checksum: the sum of the bytes, and the sum of those sums. -/
def adlerStep : Nat × Nat → UInt8 → Nat × Nat
  | (low, high), b =>
    let low := (low + b.toNat) % adlerBase
    (low, (high + low) % adlerBase)

def adler32 (bs : Bytes) : Nat :=
  let (low, high) := bs.foldl adlerStep (1, 0)
  high * 65536 + low

/-- The most bytes that one stored block can hold. -/
def blockSize : Nat := 65535

def storedBlock (last : Bool) (bs : Bytes) : Bytes :=
  (if last then 1 else 0) :: leBytes 2 bs.length ++ leBytes 2 (65535 - bs.length) ++ bs

/-- Bytes as stored blocks, each but the last one full. -/
def storedBlocks (bs : Bytes) : Bytes :=
  if bs.length ≤ blockSize then storedBlock true bs
  else storedBlock false (bs.take blockSize) ++ storedBlocks (bs.drop blockSize)
termination_by bs.length
decreasing_by simp [blockSize] at *; omega

def compress (bs : Bytes) : Bytes :=
  [0x78, 0x01] ++ storedBlocks bs ++ (leBytes 4 (adler32 bs)).reverse

/-- Whether two bytes are the header of a stream that needs no dictionary and looks back at most
32 KiB. -/
def isHeader (method flags : UInt8) : Bool :=
  (method.toNat * 256 + flags.toNat) % 31 = 0 && method.toNat % 16 = 8 && method.toNat / 16 ≤ 7 &&
    flags &&& 0x20 = 0

/-- Expand a stream to at most `limit` bytes and verify its checksum. Bytes after it are ignored. -/
def expand (limit : Nat) (bs : Bytes) : Except Inflate.Stop Inflate.Output :=
  match bs with
  | method :: flags :: rest => do
    if !isHeader method flags then throw (.fault .corrupt #[])
    let (output, rest) ← inflate limit rest
    match rest.split? 4 with
    | none => throw (.fault .incomplete output)
    | some (checksum, _) =>
      if leValue checksum.reverse = adler32 output.toList then return output
      else throw (.fault .corrupt output)
  | _ => throw (.fault .incomplete #[])

/-- How far back a stream can look. A stream is read, and its output handed on, in pieces of this
size. -/
def windowSize : Nat := 32768

/-- The number of bytes up to the end of the window in which byte `n` lies. -/
def windowEnd (n : Nat) : Nat := (n / windowSize + 1) * windowSize

/-- Whether a stream that is cut off has `limit` bytes before the cut. -/
def reachesBeforeCut (limit : Nat) (bs : Bytes) : Bool :=
  match expand (windowEnd (limit - 1)) bs with
  | .error (.fault .incomplete output) => limit ≤ output.size
  | _ => false

/-- Whether the pieces of a corrupt stream that come before the corrupt one have `limit` bytes. -/
def reachesBeforeFault (limit : Nat) (bs : Bytes) : Bool :=
  (List.range (bs.length / windowSize + 1)).any fun pieces =>
    reachesBeforeCut limit (bs.take (pieces * windowSize))

/-- The first `limit` bytes of an expanded stream. All bytes are handed on when a window is full or
a piece of the stream is used up, so a fault hides the bytes of its own window that come from its
own piece. -/
def expandFront (limit : Nat) (bs : Bytes) : Except StreamFault Bytes :=
  match expand (windowEnd (limit - 1)) bs with
  | .ok output => .ok (output.toList.take limit)
  | .error (.full output) => .ok (output.toList.take limit)
  | .error (.fault .incomplete output) =>
    if limit ≤ output.size then .ok (output.toList.take limit) else .error .incomplete
  | .error (.fault .corrupt output) =>
    if reachesBeforeFault limit bs then .ok (output.toList.take limit) else .error .corrupt

def stored : Compression where
  compress := compress
  expandFront := expandFront

end Zlib
end GameScript
