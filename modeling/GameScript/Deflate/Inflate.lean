import GameScript.Deflate.CodeTree

/-!
# Expanding compressed blocks

A stream is a list of blocks: bytes stored as they are, or symbols of a code that is fixed or given
by the block. A symbol is a byte, the end of the block, or the length of a copy of earlier output,
which a distance follows. Before the first byte of the output there are zeros, and a copy may begin
among them. When a stream cannot be expanded, what was produced before is kept beside the fault.
Expanding stops at the first block or symbol that goes past a given number of bytes, so a short
stream cannot ask for a large output.
-/
namespace GameScript
namespace Inflate

abbrev Output := Array UInt8

/-- Why expanding stops before the end of the stream: a fault, or more bytes than are allowed. The
bytes produced so far are kept. -/
inductive Stop where
  | fault (cause : StreamFault) (output : Output)
  | full (output : Output)

/-- Stop with the output so far unless there is a value. -/
def orStop (output : Output) : Except StreamFault α → Except Stop α
  | .ok a => .ok a
  | .error cause => .error (.fault cause output)

/-- Stop because the input ends, unless there is a value. -/
def orEnd : Option α → Except StreamFault α
  | some a => .ok a
  | none => .error .incomplete

/-- The base and the number of extra bits of each length symbol, from symbol 257 on. -/
def lengthCodes : Array (Nat × Nat) := #[
  (3, 0), (4, 0), (5, 0), (6, 0), (7, 0), (8, 0), (9, 0), (10, 0), (11, 1), (13, 1), (15, 1),
  (17, 1), (19, 2), (23, 2), (27, 2), (31, 2), (35, 3), (43, 3), (51, 3), (59, 3), (67, 4), (83, 4),
  (99, 4), (115, 4), (131, 5), (163, 5), (195, 5), (227, 5), (258, 0)]

/-- The base and the number of extra bits of each distance symbol. -/
def distanceCodes : Array (Nat × Nat) := #[
  (1, 0), (2, 0), (3, 0), (4, 0), (5, 1), (7, 1), (9, 2), (13, 2), (17, 3), (25, 3), (33, 4),
  (49, 4), (65, 5), (97, 5), (129, 6), (193, 6), (257, 7), (385, 7), (513, 8), (769, 8), (1025, 9),
  (1537, 9), (2049, 10), (3073, 10), (4097, 11), (6145, 11), (8193, 12), (12289, 12), (16385, 13),
  (24577, 13)]

/-- The number that a symbol with extra bits stands for. -/
def extended (codes : Array (Nat × Nat)) (symbol : Nat) (bits : BitStream) :
    Except StreamFault (Nat × BitStream) :=
  match codes[symbol]? with
  | none => .error .corrupt
  | some (base, extra) => do
    let (n, bits) ← orEnd (bits.number? extra)
    return (base + n, bits)

def byteBack (distance : Nat) (output : Output) : UInt8 :=
  if distance ≤ output.size then output.getD (output.size - distance) 0 else 0

/-- Append `count` bytes, each from `distance` bytes back. -/
def copy (distance : Nat) : Nat → Output → Output
  | 0, output => output
  | count + 1, output => copy distance count (output.push (byteBack distance output))

/-- The codes of a block: one for bytes and lengths, one for distances. -/
structure Codes where
  main : CodeTree
  distance : CodeTree

/-- Read a symbol and what belongs to it. The result is nothing at the end of the block, a byte, or
the length and distance of a copy. -/
def element (codes : Codes) (bits : BitStream) :
    Except StreamFault (Option (UInt8 ⊕ Nat × Nat) × BitStream) := do
  let (symbol, bits) ← codes.main.read bits
  if symbol < 256 then return (some (.inl (UInt8.ofNat symbol)), bits)
  else if symbol = 256 then return (none, bits)
  else
    let (length, bits) ← extended lengthCodes (symbol - 257) bits
    let (symbol, bits) ← codes.distance.read bits
    let (distance, bits) ← extended distanceCodes symbol bits
    return (some (.inr (length, distance)), bits)

/-- Stop if there are more than `limit` bytes. -/
def within (limit : Nat) (output : Output) : Except Stop Output :=
  if output.size ≤ limit then .ok output else .error (.full output)

/-- Expand the symbols of a block, to at most `limit` bytes in all. Each symbol takes at least one
bit, so `fuel` may be the number of bits. -/
def symbols (limit : Nat) (codes : Codes) :
    Nat → BitStream → Output → Except Stop (BitStream × Output)
  | 0, _, output => .error (.fault .incomplete output)
  | fuel + 1, bits, output => do
    match ← orStop output (element codes bits) with
    | (none, bits) => return (bits, output)
    | (some (.inl b), bits) => symbols limit codes fuel bits (← within limit (output.push b))
    | (some (.inr (length, distance)), bits) =>
      symbols limit codes fuel bits (← within limit (copy distance length output))

/-- The codes of a block that gives none. -/
def fixedCodes : Codes where
  main := .ofLengths (List.replicate 144 8 ++ List.replicate 112 9 ++ List.replicate 24 7 ++
    List.replicate 8 8)
  distance := .ofLengths (List.replicate 32 5)

/-- The order in which the lengths of the codes for code lengths are given. -/
def lengthOrder : List Nat := [16, 17, 18, 0, 8, 7, 9, 6, 10, 5, 11, 4, 12, 3, 13, 2, 14, 1, 15]

def triples : Nat → BitStream → Option (List Nat × BitStream)
  | 0, bits => some ([], bits)
  | n + 1, bits => do
    let (length, bits) ← bits.number? 3
    let (rest, bits) ← triples n bits
    return (length :: rest, bits)

/-- Read `wanted` code lengths; `found` are those read so far, the last one first. A symbol may
repeat the last length or zero, and such a run must not go past the end. Each symbol adds a length,
so `fuel` may be the number of lengths. -/
def codeLengths (tree : CodeTree) (wanted : Nat) :
    Nat → List Nat → BitStream → Except StreamFault (List Nat × BitStream)
  | fuel, found, bits =>
    if found.length = wanted then .ok (found.reverse, bits)
    else if found.length > wanted then .error .corrupt
    else
      match fuel with
      | 0 => .error .corrupt
      | fuel + 1 => do
        let (symbol, bits) ← tree.read bits
        if symbol < 16 then codeLengths tree wanted fuel (symbol :: found) bits
        else
          let again (length base extra : Nat) : Except StreamFault (List Nat × BitStream) := do
            let (n, bits) ← orEnd (bits.number? extra)
            codeLengths tree wanted fuel (List.replicate (base + n) length ++ found) bits
          match symbol, found with
          | 16, [] => .error .corrupt
          | 16, last :: _ => again last 3 2
          | 17, _ => again 0 3 3
          | _, _ => again 0 11 7

/-- The code for symbols or distances with the given lengths. It must be complete unless it has no
symbol, or only one and that with a code of one bit. -/
def treeOf (lengths : List Nat) : Except StreamFault CodeTree :=
  let used := lengths.filter (· ≠ 0)
  if CodeTree.isComplete lengths || used = [] || used = [1] then .ok (.ofLengths lengths)
  else .error .corrupt

/-- Read the codes of a block that gives its own. -/
def ownCodes (bits : BitStream) : Except StreamFault (Codes × BitStream) := do
  let (n, bits) ← orEnd (bits.number? 5)
  let (m, bits) ← orEnd (bits.number? 5)
  let (k, bits) ← orEnd (bits.number? 4)
  let main := n + 257
  let distance := m + 1
  if main > 286 || distance > 30 then throw .corrupt
  let (given, bits) ← orEnd (triples (k + 4) bits)
  let lengths := (List.range 19).map fun s => ((lengthOrder.zip given).lookup s).getD 0
  if !CodeTree.isComplete lengths then throw .corrupt
  let (lengths, bits) ←
    codeLengths (.ofLengths lengths) (main + distance) (main + distance) [] bits
  return (⟨← treeOf (lengths.take main), ← treeOf (lengths.drop main)⟩, bits)

def append (output : Output) (bs : Bytes) : Output := bs.foldl Array.push output

/-- Copy stored bytes: their number, its complement, and the bytes. -/
def stored (limit : Nat) (bits : BitStream) (output : Output) :
    Except Stop (BitStream × Output) := do
  let (n, bytes) ← orStop output (orEnd (bits.aligned.read? 2))
  let (complement, bytes) ← orStop output (orEnd (Bytes.read? 2 bytes))
  if n + complement ≠ 65535 then throw (.fault .corrupt output)
  match Bytes.split? n bytes with
  | none => throw (.fault .incomplete (← within limit (append output bytes)))
  | some (front, rest) => return (⟨[], rest⟩, ← within limit (append output front))

/-- Expand one block, to at most `limit` bytes in all. The flag tells whether it is the last one. -/
def block (limit : Nat) (bits : BitStream) (output : Output) :
    Except Stop (Bool × BitStream × Output) := do
  let (last, bits) ← orStop output (orEnd (bits.number? 1))
  let (kind, bits) ← orStop output (orEnd (bits.number? 2))
  let (bits, output) ←
    match kind with
    | 0 => stored limit bits output
    | 1 => symbols limit fixedCodes bits.size bits output
    | 2 => do
      let (codes, bits) ← orStop output (ownCodes bits)
      symbols limit codes bits.size bits output
    | _ => throw (.fault .corrupt output)
  return (last = 1, bits, output)

/-- Expand blocks up to the last one, to at most `limit` bytes in all. Each block takes at least
three bits, so `fuel` may be the number of bits. -/
def blocks (limit : Nat) : Nat → BitStream → Output → Except Stop (BitStream × Output)
  | 0, _, output => .error (.fault .incomplete output)
  | fuel + 1, bits, output => do
    let (last, bits, output) ← block limit bits output
    if last then return (bits, output) else blocks limit fuel bits output

end Inflate

/-- Expand a stream of compressed blocks to at most `limit` bytes. The result is the output and the
bytes after the stream. -/
def inflate (limit : Nat) (bs : Bytes) : Except Inflate.Stop (Inflate.Output × Bytes) := do
  let bits : BitStream := { bytes := bs }
  let (bits, output) ← Inflate.blocks limit (bits.size + 1) bits #[]
  return (output, bits.aligned)

end GameScript
