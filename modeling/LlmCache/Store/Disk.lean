import LlmCache.Lib.FileSystem
import LlmCache.Payload.Framing
import LlmCache.Store.Base

/-!
# Local-filesystem store

Each chunk is one file, `<root>/<cache_id>/<worker>_<chunk>.kvp`, with the
framed payload in it.  The cache id is spliced into the path as it is, so it
may hold slashes, dots or a whole path of its own.
-/

namespace LlmCache.Store

open Errors Lib Payload LlmCache.Types

structure DiskBackend where
  root : PurePath
  fs : FileSystem := {}
  capacityBytes : Option Nat := none
  pinned : Finset ChunkKey := ∅

namespace DiskBackend

/-- The location of a path. -/
def locate (s : DiskBackend) (path : PurePath) : Location :=
  path.resolve s.fs.cwd

/-- `DiskBackend(root)`: makes the root directory. -/
def create (fs : FileSystem) (root : String) (capacityBytes : Option Nat) :
    Except Raised DiskBackend :=
  let path := PurePath.ofString root
  if path.hasNul then .error (.valueError "embedded null byte")
  else
    let made := fs.makeDirs (path.resolve fs.cwd)
    match made.1 with
    | .error err => .error (.osError err)
    | .ok () => .ok { root := path, fs := made.2, capacityBytes := capacityBytes }

/-- `f"{key.worker_id}_{key.chunk_index}.kvp"`. -/
def fileName (key : ChunkKey) : String :=
  toString key.workerId ++ "_" ++ toString key.chunkIndex ++ ".kvp"

/-- `_path(key)`. -/
def path (s : DiskBackend) (key : ChunkKey) : PurePath :=
  (s.root.join key.cacheId).join (fileName key)

/-- What `put` does in the directory of the chunk: write a temporary file and
move it to its place. -/
def writeChunk (json : JsonText) (s : DiskBackend) (path : PurePath) (obj : KVPayload) :
    Except Raised Unit × FileSystem :=
  let tmp := path.withSuffix ".tmp"
  let opened := s.fs.writeFile [] (s.locate tmp)
  match opened.1 with
  | .error err => (.error (.osError err), opened.2)
  | .ok () =>
      match packPayload json obj with
      -- the temporary file is left behind empty
      | .error err => (.error err, opened.2)
      | .ok blob =>
          let written := opened.2.writeFile blob (s.locate tmp)
          let moved := written.2.replace (s.locate tmp) (s.locate path)
          match moved.1 with
          | .error err => (.error (.osError err), moved.2)
          | .ok () => (.ok (), moved.2)

def put (json : JsonText) (s : DiskBackend) (key : ChunkKey) (obj : KVPayload) (pin : Bool) :
    Except Raised Unit × DiskBackend :=
  let path := s.path key
  if path.hasNul then (.error (.valueError "embedded null byte"), s)
  else
    let made := s.fs.makeDirs (s.locate path.parent)
    match made.1 with
    | .error err => (.error (.osError err), { s with fs := made.2 })
    | .ok () =>
        let written := writeChunk json { s with fs := made.2 } path obj
        match written.1 with
        | .error err => (.error err, { s with fs := written.2 })
        | .ok () =>
            (.ok (), { s with
              fs := written.2
              pinned := if pin then insert key s.pinned else s.pinned })

/-- `path.exists()`: no path with a NUL character does. -/
def pathExists (s : DiskBackend) (path : PurePath) : Bool × DiskBackend :=
  if path.hasNul then (false, s)
  else ((s.fs.node (s.locate path)).isSome, { s with fs := s.fs.access (s.locate path) })

def get (json : JsonText) (s : DiskBackend) (key : ChunkKey) :
    Except Raised (Option UnpackedPayload) × DiskBackend :=
  let path := s.path key
  let found := s.pathExists path
  if found.1 then
    let read := found.2.fs.readFile (s.locate path)
    match read.1 with
    | .error err => (.error (.osError err), { s with fs := read.2 })
    | .ok blob => ((unpackPayload json blob).map some, { s with fs := read.2 })
  else (.ok none, found.2)

def contains (s : DiskBackend) (key : ChunkKey) : Bool × DiskBackend :=
  s.pathExists (s.path key)

def remove (s : DiskBackend) (key : ChunkKey) : Except Raised Bool × DiskBackend :=
  let path := s.path key
  let found := { s with pinned := s.pinned.erase key }.pathExists path
  if found.1 then
    let unlinked := found.2.fs.unlink (s.locate path)
    match unlinked.1 with
    | .error err => (.error (.osError err), { found.2 with fs := unlinked.2 })
    -- a cache directory that is not empty stays
    | .ok () => (.ok true, { found.2 with fs := (unlinked.2.rmdir (s.locate path.parent)).2 })
  else (.ok false, found.2)

def pin (s : DiskBackend) (key : ChunkKey) : DiskBackend :=
  { s with pinned := insert key s.pinned }

def unpin (s : DiskBackend) (key : ChunkKey) : DiskBackend :=
  { s with pinned := s.pinned.erase key }

/-- The key of a file in a cache directory, if its name is that of a chunk. -/
def parseFile (cacheDir file : String) : Option ChunkKey := do
  let (stem, extension) ← splitLast '.' file.toList
  if stem = [] ∨ extension ≠ "kvp".toList then none
  else
    let chunk ← pyInt ((stem.dropWhile (· ≠ '_')).drop 1)
    let worker ← pyInt (stem.takeWhile (· ≠ '_'))
    return ⟨cacheDir, chunk, worker⟩

/-- The keys of the files one level below the root. -/
def keys (s : DiskBackend) : List ChunkKey :=
  s.fs.nodes.keys.filterMap fun location =>
    match location with
    | file :: cacheDir :: above =>
        if above = s.locate s.root then parseFile cacheDir file else none
    | _ => none

/-- The loop of `clear`. -/
def removeKeys : List ChunkKey → DiskBackend → Except Raised Unit × DiskBackend
  | [], s => (.ok (), s)
  | key :: rest, s =>
      match (s.remove key).1 with
      | .error err => (.error err, (s.remove key).2)
      | .ok _ => removeKeys rest (s.remove key).2

def step (json : JsonText) (s : DiskBackend) :
    KeyedStore.Op ChunkKey KVPayload →
      Except Raised (KeyedStore.Reply UnpackedPayload) × DiskBackend
  | .put key obj pin =>
      ((s.put json key obj pin).1.map fun _ => .done, (s.put json key obj pin).2)
  | .get key => ((s.get json key).1.map .object, (s.get json key).2)
  | .contains key => (.ok (.flag (s.contains key).1), (s.contains key).2)
  | .remove key => ((s.remove key).1.map .flag, (s.remove key).2)
  | .pin key => (.ok .done, s.pin key)
  | .unpin key => (.ok .done, s.unpin key)
  | .clear => ((removeKeys s.keys s).1.map fun _ => .done, (removeKeys s.keys s).2)

/-- The backend as its clients see it. -/
def machine (json : JsonText) :
    Machine DiskBackend (KeyedStore.Op ChunkKey KVPayload) Raised
      (KeyedStore.Reply UnpackedPayload) where
  step := step json

end DiskBackend

end LlmCache.Store
