import LlmCache.Lib.Collect
import LlmCache.Lib.OrderedDict
import LlmCache.Store.Base
import Mathlib.Data.List.Sort

/-!
# The explicit-caching control plane

The engine keeps one descriptor per cache id and the chunk payloads in a
storage backend.  Every function takes the clock readings it makes as
arguments, and the id that `new_id` would draw.
-/

namespace LlmCache.Engine

open Errors Lib Payload LlmCache.Types Store

/-- One payload per chunk, for worker 0 or for each worker. -/
inductive Payloads where
  | sequence (payloads : List KVPayload)
  | mapping (byWorker : OrderedDict Int (List KVPayload))

/-- The arguments of `register`. -/
structure Registration where
  tokenIds : List Int
  payloads : Payloads
  cacheId : Option String := none
  ttl : Option Ttl := none
  pin : Bool := false
  name : Option String := none

/-- The arguments of `commit`. -/
structure Commit where
  cacheId : String
  tokenIds : List Int
  numLayers : Int
  workerIds : List Int := [0]
  ttl : Option Ttl := none
  pin : Bool := false
  name : Option String := none

structure LookupResult where
  cacheId : String
  numTokens : Nat
  numChunks : Nat
  full : Bool
deriving DecidableEq, Repr

structure ExplicitKVCache (σ : Type) where
  store : σ
  chunkSize : Nat
  chunkSize_pos : 0 < chunkSize
  defaultTtl : Option Ttl := none
  descriptors : OrderedDict String CacheDescriptor := ∅

namespace ExplicitKVCache

variable {σ : Type} [StorageBackend σ]

/-- `ExplicitKVCache(store, chunk_size=chunk_size, default_ttl=default_ttl)`. -/
def create (store : σ) (chunkSize : Int) (defaultTtl : Option Ttl) :
    Except Raised (ExplicitKVCache σ) :=
  if h : chunkSize ≤ 0 then .error (.valueError "chunk_size must be positive")
  else .ok { store := store, chunkSize := chunkSize.toNat, chunkSize_pos := by omega,
             defaultTtl := defaultTtl }

/-! ## Registration -/

def normalizePayloads : Payloads → OrderedDict Int (List KVPayload)
  | .sequence payloads => AList.singleton 0 payloads
  | .mapping byWorker => byWorker

/-- The loop that compares each worker's payload count with the chunk count. -/
def checkCounts (expected : Nat) : List (Sigma fun _ : Int => List KVPayload) → Except Raised Unit
  | [] => .ok ()
  | ⟨workerId, chunks⟩ :: rest =>
      if chunks.length ≠ expected then
        .error (.valueError s!"worker {workerId}: got {chunks.length} payload chunks, expected {expected}")
      else checkCounts expected rest

/-- The chunks in the order in which `register` stores them. -/
def chunkPuts (cacheId : String) (byWorker : OrderedDict Int (List KVPayload)) :
    List (ChunkKey × KVPayload) :=
  byWorker.entries.flatMap fun entry =>
    entry.2.zipIdx.map fun chunk => (⟨cacheId, chunk.2, entry.1⟩, chunk.1)

/-- `self.store.put(key, payload, pin=pin)` for one chunk after another. -/
def putChunks (pin : Bool) : List (ChunkKey × KVPayload) → σ → Except Raised Unit × σ
  | [], store => (.ok (), store)
  | (key, payload) :: rest, store =>
      let out := KeyedStore.put store key payload pin
      match out.1 with
      | .error err => (.error err, out.2)
      | .ok () => putChunks pin rest out.2

/-- `num_layers = max(num_layers, payload.num_layers)` over all chunks. -/
def maxLayers (puts : List (ChunkKey × KVPayload)) : Int :=
  puts.foldl (fun layers put => max layers put.2.numLayers) 0

/-- `[token_fingerprint(c) for c in token_chunks]`. -/
def fingerprints (blake2b : List UInt8 → String) (chunks : List (List Int)) :
    Except Raised (List String) :=
  collect (tokenFingerprint blake2b) chunks

/-- `_build_descriptor` for tokens of any type. -/
def buildDescriptor {α : Type} (fingerprint : List α → Except Raised String)
    (s : ExplicitKVCache σ) (cacheId : String) (tokenChunks : List (List α)) (numLayers : Int)
    (workerIds : List Int) (ttl : Option Ttl) (pin : Bool) (name : Option String) (now : Time) :
    Except Raised CacheDescriptor :=
  match Ttl.expiry now (ttl.or s.defaultTtl), collect fingerprint tokenChunks with
  | .ok expiresAt, .ok digests =>
      .ok { cacheId := cacheId
            numTokens := (tokenChunks.map List.length).sum
            chunkSize := s.chunkSize
            numLayers := numLayers
            workerIds := workerIds
            createdAt := now
            expiresAt := expiresAt
            pinned := pin
            chunkFingerprints := digests
            name := name }
  | .error err, _ => .error err
  | .ok _, .error err => .error err

/-- `with self._lock: self._descriptors[cid] = descriptor`. -/
def publish (s : ExplicitKVCache σ) (cacheId : String) (d : CacheDescriptor) :
    ExplicitKVCache σ :=
  { s with descriptors := OrderedDict.setItem s.descriptors cacheId d }

/-- Publish what `_build_descriptor` returned, if it returned. -/
def publishBuilt (s : ExplicitKVCache σ) (cacheId : String)
    (built : Except Raised CacheDescriptor) : Except Raised CacheDescriptor × ExplicitKVCache σ :=
  match built with
  | .error err => (.error err, s)
  | .ok d => (.ok d, s.publish cacheId d)

/-- `cache_id or CacheDescriptor.new_id()`. -/
def resolveId (cacheId : Option String) (newId : String) : String :=
  match cacheId with
  | none => newId
  | some cid => if cid = "" then newId else cid

def register (blake2b : List UInt8 → String) (s : ExplicitKVCache σ) (r : Registration)
    (newId : String) (now : Time) : Except Raised CacheDescriptor × ExplicitKVCache σ :=
  match chunkTokenIds r.tokenIds s.chunkSize with
  | .error err => (.error err, s)
  | .ok tokenChunks =>
      let byWorker := normalizePayloads r.payloads
      match checkCounts tokenChunks.length byWorker.entries with
      | .error err => (.error err, s)
      | .ok () =>
          let cid := resolveId r.cacheId newId
          let puts := chunkPuts cid byWorker
          let out := putChunks r.pin puts s.store
          let stored := { s with store := out.2 }
          match out.1 with
          | .error err => (.error err, stored)
          | .ok () =>
              stored.publishBuilt cid <|
                buildDescriptor (tokenFingerprint blake2b) stored cid tokenChunks (maxLayers puts)
                  (byWorker.keys.insertionSort (· ≤ ·)) r.ttl r.pin r.name now

/-! ## Low-level building blocks -/

def putChunk (s : ExplicitKVCache σ) (cacheId : String) (chunkIndex : Int) (payload : KVPayload)
    (workerId : Int) (pin : Bool) : Except Raised Unit × ExplicitKVCache σ :=
  let out := KeyedStore.put s.store ⟨cacheId, chunkIndex, workerId⟩ payload pin
  (out.1, { s with store := out.2 })

def commit (blake2b : List UInt8 → String) (s : ExplicitKVCache σ) (c : Commit) (now : Time) :
    Except Raised CacheDescriptor × ExplicitKVCache σ :=
  match chunkTokenIds c.tokenIds s.chunkSize with
  | .error err => (.error err, s)
  | .ok tokenChunks =>
      s.publishBuilt c.cacheId <|
        buildDescriptor (tokenFingerprint blake2b) s c.cacheId tokenChunks c.numLayers
          (c.workerIds.insertionSort (· ≤ ·)) c.ttl c.pin c.name now

/-! ## Lookup and load -/

/-- The keys of a cache's chunks, worker by worker. -/
def chunkKeys (cacheId : String) (d : CacheDescriptor) : List ChunkKey :=
  d.workerIds.flatMap fun w => (List.range d.numChunks).map fun i : Nat => ⟨cacheId, i, w⟩

/-- `self.store.remove(key)` for one key after another. -/
def removeAll (store : σ) (keys : List ChunkKey) : σ :=
  keys.foldl (fun store key => (KeyedStore.remove store key).2) store

def delete (s : ExplicitKVCache σ) (cacheId : String) : ExplicitKVCache σ :=
  match s.descriptors.lookup cacheId with
  | none => s
  | some d =>
      { s with
        descriptors := s.descriptors.erase cacheId
        store := removeAll s.store (chunkKeys cacheId d) }

def liveDescriptor (s : ExplicitKVCache σ) (cacheId : String) (clock : Time) :
    Except Raised CacheDescriptor × ExplicitKVCache σ :=
  match s.descriptors.lookup cacheId with
  | none => (.error (.cacheNotFound cacheId), s)
  | some d =>
      if d.isExpired none clock then (.error (.cacheExpired cacheId), s.delete cacheId)
      else (.ok d, s)

def get (s : ExplicitKVCache σ) (cacheId : String) (clock : Time) :
    Except Raised CacheDescriptor × ExplicitKVCache σ :=
  s.liveDescriptor cacheId clock

def exists' (s : ExplicitKVCache σ) (cacheId : String) (clock : Time) :
    Bool × ExplicitKVCache σ :=
  let live := s.liveDescriptor cacheId clock
  match live.1 with
  | .ok _ => (true, live.2)
  | .error _ => (false, live.2)

/-- All chunks without request tokens, else those that the request starts with. -/
def matchedChunks (blake2b : List UInt8 → String) (d : CacheDescriptor) :
    Option (List Int) → Except Raised Nat
  | none => .ok d.numChunks
  | some requestTokens => matchedChunkCount blake2b requestTokens d

/-- `stamp` is the reading that becomes `last_used_at`. -/
def lookup (blake2b : List UInt8 → String) (s : ExplicitKVCache σ) (cacheId : String)
    (requestTokens : Option (List Int)) (clock stamp : Time) :
    Except Raised LookupResult × ExplicitKVCache σ :=
  let live := s.liveDescriptor cacheId clock
  match live.1 with
  | .error err => (.error err, live.2)
  | .ok d =>
      match matchedChunks blake2b d requestTokens with
      | .error err => (.error err, live.2)
      | .ok matched =>
          let full : Bool := matched = d.numChunks
          let reusable := if full then d.numTokens else matched * d.chunkSize
          (.ok ⟨cacheId, reusable, matched, full⟩,
            live.2.publish cacheId { d with hits := d.hits + 1, lastUsedAt := some stamp })

/-- The loop of `load` over the chunk indexes. -/
def loadLoop (cacheId : String) (workerId : Int) :
    List Nat → σ → Except Raised (List KVPayload) × σ
  | [], store => (.ok [], store)
  | idx :: rest, store =>
      let read := KeyedStore.get store ⟨cacheId, idx, workerId⟩
      match read.1 with
      | .error err => (.error err, read.2)
      | .ok none => (.error (.cacheMismatch cacheId idx workerId), read.2)
      | .ok (some payload) =>
          let tail := loadLoop cacheId workerId rest read.2
          (tail.1.map (payload :: ·), tail.2)

def load (s : ExplicitKVCache σ) (cacheId : String) (numChunks : Option Int) (workerId : Int)
    (clock : Time) : Except Raised (List KVPayload) × ExplicitKVCache σ :=
  let live := s.liveDescriptor cacheId clock
  match live.1 with
  | .error err => (.error err, live.2)
  | .ok d =>
      let count : Int :=
        match numChunks with
        | none => d.numChunks
        | some n => min n d.numChunks
      let out := loadLoop cacheId workerId (List.range count.toNat) live.2.store
      (out.1, { live.2 with store := out.2 })

/-! ## Lifecycle -/

/-- `stamp` is the second clock reading, to which the lifetime is added. -/
def extendTtl (s : ExplicitKVCache σ) (cacheId : String) (ttl : Ttl) (clock stamp : Time) :
    Except Raised CacheDescriptor × ExplicitKVCache σ :=
  let live := s.liveDescriptor cacheId clock
  match live.1 with
  | .error err => (.error err, live.2)
  | .ok d =>
      match ttl.addedTo stamp with
      | .error err => (.error err, live.2)
      | .ok expiresAt =>
          let renewed := { d with expiresAt := some expiresAt }
          (.ok renewed, live.2.publish cacheId renewed)

def pin (s : ExplicitKVCache σ) (cacheId : String) (clock : Time) :
    Except Raised Unit × ExplicitKVCache σ :=
  let live := s.liveDescriptor cacheId clock
  match live.1 with
  | .error err => (.error err, live.2)
  | .ok d =>
      (.ok (), { live.2.publish cacheId { d with pinned := true } with
                 store := (chunkKeys cacheId d).foldl KeyedStore.pin live.2.store })

def unpin (s : ExplicitKVCache σ) (cacheId : String) (clock : Time) :
    Except Raised Unit × ExplicitKVCache σ :=
  let live := s.liveDescriptor cacheId clock
  match live.1 with
  | .error err => (.error err, live.2)
  | .ok d =>
      (.ok (), { live.2.publish cacheId { d with pinned := false } with
                 store := (chunkKeys cacheId d).foldl KeyedStore.unpin live.2.store })

/-- `again` is what the clock reads should `now` be zero. -/
def sweepExpired (s : ExplicitKVCache σ) (now again : Time) : Nat × ExplicitKVCache σ :=
  let expired := (OrderedDict.values s.descriptors).filter (·.isExpired (some now) again)
  (expired.length, expired.foldl (fun s d => s.delete d.cacheId) s)

def list (s : ExplicitKVCache σ) (now again : Time) :
    List CacheDescriptor × ExplicitKVCache σ :=
  let s := (s.sweepExpired now again).2
  (OrderedDict.values s.descriptors, s)

end ExplicitKVCache

/-! ## The engine as a machine -/

/-- One call of a client, with the clock readings it makes. -/
inductive EngineOp where
  | register (r : Registration) (newId : String) (now : Time)
  | putChunk (cacheId : String) (chunkIndex : Int) (payload : KVPayload) (workerId : Int)
      (pin : Bool)
  | commit (c : Commit) (now : Time)
  | get (cacheId : String) (clock : Time)
  | exists (cacheId : String) (clock : Time)
  | lookup (cacheId : String) (requestTokens : Option (List Int)) (clock stamp : Time)
  | load (cacheId : String) (numChunks : Option Int) (workerId : Int) (clock : Time)
  | delete (cacheId : String)
  | extendTtl (cacheId : String) (ttl : Ttl) (clock stamp : Time)
  | pin (cacheId : String) (clock : Time)
  | unpin (cacheId : String) (clock : Time)
  | list (now again : Time)
  | sweepExpired (now again : Time)

/-- What a call that does not raise returns. -/
inductive EngineReply where
  | done
  | descriptor (d : CacheDescriptor)
  | flag (value : Bool)
  | found (result : LookupResult)
  | payloads (payloads : List KVPayload)
  | descriptors (ds : List CacheDescriptor)
  | count (n : Nat)
deriving DecidableEq

namespace ExplicitKVCache

variable {σ : Type} [StorageBackend σ] (blake2b : List UInt8 → String)

def step (s : ExplicitKVCache σ) : EngineOp → Except Raised EngineReply × ExplicitKVCache σ
  | .register r newId now =>
      ((s.register blake2b r newId now).1.map .descriptor, (s.register blake2b r newId now).2)
  | .putChunk cacheId chunkIndex payload workerId pin =>
      ((s.putChunk cacheId chunkIndex payload workerId pin).1.map fun _ => .done,
        (s.putChunk cacheId chunkIndex payload workerId pin).2)
  | .commit c now => ((s.commit blake2b c now).1.map .descriptor, (s.commit blake2b c now).2)
  | .get cacheId clock => ((s.get cacheId clock).1.map .descriptor, (s.get cacheId clock).2)
  | .exists cacheId clock => (.ok (.flag (s.exists' cacheId clock).1), (s.exists' cacheId clock).2)
  | .lookup cacheId requestTokens clock stamp =>
      ((s.lookup blake2b cacheId requestTokens clock stamp).1.map .found,
        (s.lookup blake2b cacheId requestTokens clock stamp).2)
  | .load cacheId numChunks workerId clock =>
      ((s.load cacheId numChunks workerId clock).1.map .payloads,
        (s.load cacheId numChunks workerId clock).2)
  | .delete cacheId => (.ok .done, s.delete cacheId)
  | .extendTtl cacheId ttl clock stamp =>
      ((s.extendTtl cacheId ttl clock stamp).1.map .descriptor,
        (s.extendTtl cacheId ttl clock stamp).2)
  | .pin cacheId clock => ((s.pin cacheId clock).1.map fun _ => .done, (s.pin cacheId clock).2)
  | .unpin cacheId clock =>
      ((s.unpin cacheId clock).1.map fun _ => .done, (s.unpin cacheId clock).2)
  | .list now again => (.ok (.descriptors (s.list now again).1), (s.list now again).2)
  | .sweepExpired now again =>
      (.ok (.count (s.sweepExpired now again).1), (s.sweepExpired now again).2)

/-- The engine driven by its clients. -/
def machine (σ : Type) [StorageBackend σ] :
    Machine (ExplicitKVCache σ) EngineOp Raised EngineReply where
  step := step blake2b

end ExplicitKVCache

end LlmCache.Engine
