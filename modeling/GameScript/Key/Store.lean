import GameScript.Cipher.Payload
import GameScript.Container.Format
import GameScript.Key.Digest

/-!
# Finding keys

Keys are not part of the toolchain. A key is looked for in a game's executable, where it is the
first run of thirty-two bytes with a known digest, and is then kept in a file so that the search is
made only once.
-/
namespace GameScript

/-- The digest of the key that both games use. -/
def keySignature : Bytes :=
  [0xDE, 0xA3, 0x75, 0xEF, 0x1E, 0x6E, 0xF2, 0x22, 0x3A, 0x12, 0x21, 0xC2, 0xC5, 0x75, 0xC4, 0x7B,
    0xF1, 0x7E, 0xFA, 0x5E]

/-- The first thirty-two bytes in a row with the given digest. -/
def searchKey (signature : Bytes) : Bytes → Option CipherKey
  | [] => none
  | b :: bs =>
    match CipherKey.ofFront? (b :: bs) with
    | none => none
    | some key => if Digest.sha1 key.bytes = signature then some key else searchKey signature bs

/-- The file in which the key of a game is kept. -/
def Game.cacheFile : Game → String
  | gta4 => "keys_gta4.dat"
  | payne => "keys_mp3.dat"

def joinPath (directory file : String) : String :=
  if directory.isEmpty || directory.endsWith "/" then directory ++ file
  else directory ++ "/" ++ file

/-- Where keys come from: a directory for the files in which they are kept, and the executables. -/
structure KeyConfig where
  cacheDirectory : Option String := none
  gta4Executable : Option String := none
  payneExecutable : Option String := none
deriving DecidableEq, Repr

namespace KeyConfig

/-- What a configuration can be given by name. -/
inductive Setting where
  | cacheDirectory
  | executable (game : Game)
deriving DecidableEq, Repr

/-- The environment variable in which a setting is looked for. -/
def Setting.variableName : Setting → String
  | cacheDirectory => "SCTOOLS_KEY_CACHE"
  | executable .gta4 => "SCTOOLS_GTA4_EXE"
  | executable .payne => "SCTOOLS_MP3_EXE"

/-- The configuration that an environment gives. An empty variable counts as absent. -/
def ofEnvironment (value : String → Option String) : KeyConfig :=
  let given (s : Setting) := (value s.variableName).filter (!·.isEmpty)
  ⟨given .cacheDirectory, given (.executable .gta4), given (.executable .payne)⟩

def withCacheDirectory (c : KeyConfig) (directory : String) : KeyConfig :=
  { c with cacheDirectory := some directory }

def withExecutable (c : KeyConfig) (game : Game) (path : String) : KeyConfig :=
  match game with
  | .gta4 => { c with gta4Executable := some path }
  | .payne => { c with payneExecutable := some path }

def executable (c : KeyConfig) : Game → Option String
  | .gta4 => c.gta4Executable
  | .payne => c.payneExecutable

def cachePath (c : KeyConfig) (game : Game) : Option String :=
  c.cacheDirectory.map (joinPath · game.cacheFile)

end KeyConfig

abbrev Files := List (String × Bytes)

namespace Files

def read? (files : Files) (path : String) : Option Bytes := files.lookup path

def remove (files : Files) (path : String) : Files := files.filter (·.1 != path)

def write (files : Files) (path : String) (data : Bytes) : Files :=
  (path, data) :: files.remove path

end Files

/-- Keys found so far, and where to look for the others. -/
structure KeyStore where
  config : KeyConfig := {}
  keys : List (Game × CipherKey) := []

namespace KeyStore

/-- Use a key without looking for it. -/
def insert (store : KeyStore) (game : Game) (key : CipherKey) : KeyStore :=
  { store with keys := (game, key) :: store.keys }

/-- Find a key outside the store: in its file, or else in the executable, after which its file is
written. A file that is missing or too short is passed over. -/
def load (store : KeyStore) (files : Files) (game : Game) : Except KeyError (CipherKey × Files) :=
  let cache := store.config.cachePath game
  match cache.bind fun path => (files.read? path).bind CipherKey.ofFront? with
  | some key => .ok (key, files)
  | none =>
    match store.config.executable game with
    | none => .error (.noExecutable game.keyName)
    | some path =>
      match files.read? path with
      | none => .error (.unreadable path)
      | some data =>
        match searchKey keySignature data with
        | none => .error (.notFound game.keyName path)
        | some key => .ok (key, (cache.map fun path => files.write path key.bytes).getD files)

/-- The key of a game, with the store and the files afterwards. A key once found is remembered; a
failure is not. -/
def key (store : KeyStore) (files : Files) (game : Game) :
    Except KeyError (CipherKey × KeyStore × Files) :=
  match store.keys.lookup game with
  | some key => .ok (key, store, files)
  | none => do
    let (key, files) ← store.load files game
    return (key, store.insert game key, files)

end KeyStore
end GameScript
