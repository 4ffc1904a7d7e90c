import GameScript.Cipher.Payload
import GameScript.Container.Compression
import GameScript.Container.Format

/-!
# Containers

A container holds the code of a script, its statics and the globals it declares. Its image is a
header of little-endian words and a payload:

* plain: code, statics and globals one after the other;
* encrypted: the same, each encrypted on its own;
* compressed: all three together, compressed and then encrypted.
-/
namespace GameScript

/-- The version word that images without one stand for. -/
def noVersion : Word := 0xFFFFFFFF

/-- A script in the form in which a game loads it. -/
structure Container where
  format : Format
  code : Bytes := []
  statics : List Word := []
  globals : List Word := []
  argsCount : Word := 0
  globalsSignature : Word := 0
  version : Word := noVersion
deriving DecidableEq, Repr

namespace Container

/-- The key that a format asks for. A plain format ignores the key it is given. -/
def requiredKey (format : Format) (key : Option CipherKey) : Except KeyError (Option CipherKey) :=
  if format.isEncrypted then
    match key with
    | some key => .ok (some key)
    | none => .error (.missing format.game.keyName)
  else .ok none

def lock (key : Option CipherKey) (bs : Bytes) : Bytes :=
  match key with
  | some key => Payload.encrypt key bs
  | none => bs

def unlock (key : Option CipherKey) (bs : Bytes) : Bytes :=
  match key with
  | some key => Payload.decrypt key bs
  | none => bs

def lengthWord (what : String) (n : Nat) : Except FormatError Word :=
  if n < 0x100000000 then .ok (UInt32.ofNat n) else .error (.lengthMismatch what 0xFFFFFFFF n)

/-- The header of an image: what a container says about itself, and the sizes of its segments. -/
structure Header where
  format : Format
  codeSize : Word
  staticsCount : Word
  globalsCount : Word
  argsCount : Word
  globalsSignature : Word
  version : Word
deriving DecidableEq, Repr

namespace Header

def words (h : Header) : List Word :=
  [h.format.magic, h.codeSize, h.staticsCount, h.globalsCount, h.argsCount, h.globalsSignature] ++
    if h.format.hasVersion then [h.version] else []

/-- The length of the segments before compression. -/
def payloadSize (h : Header) : Nat :=
  h.codeSize.toNat + slotSize * (h.staticsCount.toNat + h.globalsCount.toNat)

def word (bs : Bytes) : Except FormatError (Word × Bytes) :=
  match bs.readWord? with
  | some r => .ok r
  | none => .error (.truncated .field)

/-- Read the header of an image for a game. -/
def read (game : Game) (bs : Bytes) : Except FormatError (Header × Bytes) := do
  let (magic, bs) ← word bs
  let format ← Format.ofMagic game magic
  let (codeSize, bs) ← word bs
  let (staticsCount, bs) ← word bs
  let (globalsCount, bs) ← word bs
  let (argsCount, bs) ← word bs
  let (globalsSignature, bs) ← word bs
  let (version, bs) ← if format.hasVersion then word bs else pure (noVersion, bs)
  return ({ format, codeSize, staticsCount, globalsCount, argsCount, globalsSignature, version },
    bs)

end Header

def header (c : Container) : Except FormatError Header := do
  return {
    format := c.format
    codeSize := ← lengthWord "code" c.code.length
    staticsCount := ← lengthWord "statics" c.statics.length
    globalsCount := ← lengthWord "globals" c.globals.length
    argsCount := c.argsCount
    globalsSignature := c.globalsSignature
    version := c.version }

/-- What follows the header in an image. -/
def payload (z : Compression) (c : Container) (key : Option CipherKey) :
    Except FormatError Bytes := do
  let statics := bytesOfWords c.statics
  let globals := bytesOfWords c.globals
  if c.format.isCompressed then
    let packed := lock key (z.compress (c.code ++ statics ++ globals))
    return (← lengthWord "compressed payload" packed.length).toBytes ++ packed
  else
    let size := if c.format.hasPayloadSize then Word.toBytes 0 else []
    return size ++ lock key c.code ++ lock key statics ++ lock key globals

def encode (z : Compression) (c : Container) (key : Option CipherKey) : Except Failure Bytes := do
  let key ← (requiredKey c.format key).mapError .key
  let header ← c.header.mapError .format
  let payload ← (c.payload z key).mapError .format
  return bytesOfWords header.words ++ payload

def segment (what : String) (n : Nat) (bs : Bytes) : Except FormatError (Bytes × Bytes) :=
  match bs.split? n with
  | some r => .ok r
  | none => .error (.truncated (.segment what n bs.length))

/-- The container with a header and three decrypted segments. -/
def ofSegments (h : Header) (code statics globals : Bytes) : Container where
  format := h.format
  code := code
  statics := wordsOfBytes statics
  globals := wordsOfBytes globals
  argsCount := h.argsCount
  globalsSignature := h.globalsSignature
  version := h.version

def plainPayload (h : Header) (key : Option CipherKey) (bs : Bytes) :
    Except FormatError Container := do
  let (code, bs) ← segment "code" h.codeSize.toNat bs
  let (statics, bs) ← segment "statics" (slotSize * h.staticsCount.toNat) bs
  let (globals, _) ← segment "globals" (slotSize * h.globalsCount.toNat) bs
  return ofSegments h (unlock key code) (unlock key statics) (unlock key globals)

def packedPayload (z : Compression) (h : Header) (key : Option CipherKey) (size : Nat)
    (bs : Bytes) : Except FormatError Container := do
  let (packed, _) ← segment "compressed payload" size bs
  let data ← z.decompress h.payloadSize (unlock key packed)
  let (code, data) := data.splitAt h.codeSize.toNat
  let (statics, globals) := data.splitAt (slotSize * h.staticsCount.toNat)
  return ofSegments h code statics globals

/-- Read what follows the header in an image. -/
def readPayload (z : Compression) (h : Header) (key : Option CipherKey) (bs : Bytes) :
    Except FormatError Container := do
  if h.format.hasPayloadSize then
    let (size, bs) ← Header.word bs
    if h.format.isCompressed then packedPayload z h key size.toNat bs else plainPayload h key bs
  else plainPayload h key bs

/-- Read the image of a container for a game. Bytes after the image are ignored. -/
def decode (z : Compression) (bs : Bytes) (game : Game) (key : Option CipherKey) :
    Except Failure Container := do
  let (header, bs) ← (Header.read game bs).mapError .format
  let key ← (requiredKey header.format key).mapError .key
  (readPayload z header key bs).mapError .format

end Container
end GameScript
