import GameScript.Error

/-!
# Container formats

A script image starts with a magic number that tells the game it belongs to and how its payload is
stored: plain, encrypted, or compressed and encrypted.
-/
namespace GameScript

inductive Game where
  | gta4
  | payne
deriving DecidableEq, Repr

namespace Game

def title : Game → String
  | gta4 => "GTA IV"
  | payne => "Max Payne 3"

def keyName : Game → String
  | gta4 => "GTA4 PC"
  | payne => "MP3 PC"

end Game

/-- How a container is stored. Two versions of the second game's formats are in use. -/
inductive Format where
  | gta4Plain
  | gta4Encrypted
  | gta4Compressed
  | payne10Encrypted
  | payne10Compressed
  | payne11Encrypted
  | payne11Compressed
deriving DecidableEq, Repr

namespace Format

def all : List Format :=
  [gta4Plain, gta4Encrypted, gta4Compressed, payne10Encrypted, payne10Compressed, payne11Encrypted,
    payne11Compressed]

def magic : Format → Word
  | gta4Plain => 0x0D524353
  | gta4Encrypted => 0x0E726373
  | gta4Compressed => 0x0E726353
  | payne10Encrypted => 0x10726373
  | payne10Compressed => 0x10726353
  | payne11Encrypted => 0x11726373
  | payne11Compressed => 0x11726353

def game : Format → Game
  | gta4Plain | gta4Encrypted | gta4Compressed => .gta4
  | _ => .payne

def isEncrypted : Format → Bool
  | gta4Plain => false
  | _ => true

def isCompressed : Format → Bool
  | gta4Compressed | payne10Compressed | payne11Compressed => true
  | _ => false

def hasVersion : Format → Bool
  | payne11Encrypted | payne11Compressed => true
  | _ => false

/-- Whether a word for the size of the compressed payload follows the header. Containers of the
second game have it in every format. -/
def hasPayloadSize (f : Format) : Bool := f.game = .payne || f.isCompressed

/-- The format with a magic number, among those of a game. -/
def ofMagic (game : Game) (magic : Word) : Except FormatError Format :=
  match all.find? fun f => f.magic = magic && f.game = game with
  | some f => .ok f
  | none => .error (.unrecognizedMagic magic)

end Format
end GameScript
