import LlmCache.Engine
import LlmCache.Lib.Lists

/-!
# What the engine is for

A catalogue of prompts: under each id what was registered last, how long it is
good for and how it has been used.  It knows nothing of chunk keys, of stores or
of fingerprints; the hash only makes what a descriptor shows of them.
-/

namespace LlmCache.Engine

open Errors Lib Payload LlmCache.Types ExplicitKVCache

namespace Catalogue

/-- A registered prompt, and what has become of it. -/
structure Entry where
  given : Registration
  createdAt : Time
  expiresAt : Option Ticks
  pinned : Bool
  hits : Nat := 0
  lastUsedAt : Option Time := none

namespace Entry

def ended (e : Entry) (time : Time) : Bool :=
  e.expiresAt.any (·.Reached time)

def byWorker (e : Entry) : OrderedDict Int (List KVPayload) :=
  normalizePayloads e.given.payloads

def chunks (e : Entry) (chunkSize : Nat) : List (List Int) :=
  tokenSlices e.given.tokenIds chunkSize

/-- The most layers that a payload has. -/
def layers (e : Entry) : Int :=
  (e.byWorker.entries.flatMap Sigma.snd).foldl (fun layers payload => max layers payload.numLayers) 0

/-- What clients are shown. -/
def descriptor (blake2b : List UInt8 → String) (chunkSize : Nat) (cid : String) (e : Entry) :
    CacheDescriptor where
  cacheId := cid
  numTokens := e.given.tokenIds.length
  chunkSize := chunkSize
  numLayers := e.layers
  workerIds := e.byWorker.keys.insertionSort (· ≤ ·)
  createdAt := e.createdAt
  expiresAt := e.expiresAt
  pinned := e.pinned
  chunkFingerprints := (fingerprints blake2b (e.chunks chunkSize)).toOption.getD []
  name := e.given.name
  hits := e.hits
  lastUsedAt := e.lastUsedAt

/-- How many leading chunks the request has in common with the prompt. -/
def shared (e : Entry) (chunkSize : Nat) : Option (List Int) → Nat
  | none => (e.chunks chunkSize).length
  | some request => commonPrefix (e.chunks chunkSize) (tokenSlices request chunkSize)

/-- The payloads of the first chunks. -/
def payloads (e : Entry) (worker : Int) (numChunks : Option Int) : List KVPayload :=
  let given := (e.byWorker.lookup worker).getD []
  match numChunks with
  | none => given
  | some n => given.take n.toNat

end Entry

end Catalogue

structure Catalogue where
  chunkSize : Nat
  defaultTtl : Option Ttl := none
  entries : OrderedDict String Catalogue.Entry := ∅

namespace Catalogue

def set (t : Catalogue) (cid : String) (e : Entry) : Catalogue :=
  { t with entries := OrderedDict.setItem t.entries cid e }

def drop (t : Catalogue) (cid : String) : Catalogue :=
  { t with entries := t.entries.erase cid }

def entryOf (r : Registration) (now : Time) (expiresAt : Option Ticks) : Entry where
  given := r
  createdAt := now
  expiresAt := expiresAt
  pinned := r.pin

variable (blake2b : List UInt8 → String)

def register (t : Catalogue) (r : Registration) (newId : String) (now : Time) :
    Except Raised EngineReply × Catalogue :=
  match checkCounts (tokenSlices r.tokenIds t.chunkSize).length
    (normalizePayloads r.payloads).entries with
  | .error err => (.error err, t)
  | .ok () =>
      match Ttl.expiry now (r.ttl.or t.defaultTtl) with
      | .error err => (.error err, t)
      | .ok expiresAt =>
          let cid := resolveId r.cacheId newId
          let e := entryOf r now expiresAt
          (.ok (.descriptor (e.descriptor blake2b t.chunkSize cid)), t.set cid e)

/-- The entry under the id, and the catalogue without it once it is over. -/
def find (t : Catalogue) (cid : String) (clock : Time) : Except Raised Entry × Catalogue :=
  match t.entries.lookup cid with
  | none => (.error (.cacheNotFound cid), t)
  | some e => if e.ended clock then (.error (.cacheExpired cid), t.drop cid) else (.ok e, t)

/-- What a call answers and does once it has found its entry. -/
def onFound (t : Catalogue) (cid : String) (clock : Time)
    (use : Entry → EngineReply × Catalogue) : Except Raised EngineReply × Catalogue :=
  match t.find cid clock with
  | (.error err, t') => (.error err, t')
  | (.ok e, _) => (.ok (use e).1, (use e).2)

def sweep (t : Catalogue) (time : Time) : Nat × Catalogue :=
  let gone := t.entries.entries.filter fun entry => entry.2.ended time
  (gone.length, gone.foldl (fun t entry => t.drop entry.1) t)

def shown (t : Catalogue) : List CacheDescriptor :=
  t.entries.entries.map fun entry => entry.2.descriptor blake2b t.chunkSize entry.1

/-- The clock of a sweep, which is read again should it show zero. -/
def sweepTime (now again : Time) : Time :=
  if now = 0 then again else now

def step (t : Catalogue) : EngineOp → Except Raised EngineReply × Catalogue
  | .register r newId now => t.register blake2b r newId now
  | .get cid clock =>
      t.onFound cid clock fun e => (.descriptor (e.descriptor blake2b t.chunkSize cid), t)
  | .exists cid clock =>
      let found := t.find cid clock
      (.ok (.flag found.1.isOk), found.2)
  | .lookup cid request clock stamp =>
      t.onFound cid clock fun e =>
        let matched := e.shared t.chunkSize request
        (.found ⟨cid, ((e.chunks t.chunkSize).take matched).flatten.length, matched,
            matched = (e.chunks t.chunkSize).length⟩,
          t.set cid { e with hits := e.hits + 1, lastUsedAt := some stamp })
  | .load cid numChunks worker clock =>
      t.onFound cid clock fun e => (.payloads (e.payloads worker numChunks), t)
  | .delete cid => (.ok .done, t.drop cid)
  | .extendTtl cid ttl clock stamp =>
      match ttl.addedTo stamp with
      | .error err => ((t.find cid clock).1.bind fun _ => .error err, (t.find cid clock).2)
      | .ok expiresAt =>
          t.onFound cid clock fun e =>
            let renewed := { e with expiresAt := some expiresAt }
            (.descriptor (renewed.descriptor blake2b t.chunkSize cid), t.set cid renewed)
  | .pin cid clock => t.onFound cid clock fun e => (.done, t.set cid { e with pinned := true })
  | .unpin cid clock => t.onFound cid clock fun e => (.done, t.set cid { e with pinned := false })
  | .list now again =>
      let left := (t.sweep (sweepTime now again)).2
      (.ok (.descriptors (left.shown blake2b)), left)
  | .sweepExpired now again =>
      let swept := t.sweep (sweepTime now again)
      (.ok (.count swept.1), swept.2)
  -- the low-level writes are no calls of a catalogue
  | .putChunk .. | .commit .. => (.ok .done, t)

def machine : Machine Catalogue EngineOp Raised EngineReply where
  step := step blake2b

end Catalogue

end LlmCache.Engine
