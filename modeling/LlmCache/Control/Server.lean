import LlmCache.Engine
import LlmCache.Lib.Urls

/-!
# The HTTP control plane

Routing of a request to the cache it names, and what the server does with that
cache.  The routes that name no cache are answered by a parameter, `collection`.
-/

namespace LlmCache.Control

open Errors Lib LlmCache.Types Store Engine

inductive Method where
  | get
  | post
  | delete
deriving DecidableEq, Repr

/-- The word that starts the request line. -/
def Method.text : Method → List Char
  | .get => "GET".toList
  | .post => "POST".toList
  | .delete => "DELETE".toList

/-- A request as it arrives: `ttl` is the one field that a body carries here. -/
structure Request where
  method : Method
  target : List Char
  ttl : Option Ticks
deriving DecidableEq, Repr

/-- `descriptor_to_dict(d)`. -/
structure DescriptorDict where
  cacheId : String
  name : Option String
  numTokens : Nat
  numChunks : Nat
  chunkSize : Nat
  numLayers : Int
  workerIds : List Int
  pinned : Bool
  createdAt : Time
  expiresAt : Option Ticks
  hits : Nat
  lastUsedAt : Option Time
deriving DecidableEq, Repr

def descriptorToDict (d : CacheDescriptor) : DescriptorDict where
  cacheId := d.cacheId
  name := d.name
  numTokens := d.numTokens
  numChunks := d.numChunks
  chunkSize := d.chunkSize
  numLayers := d.numLayers
  workerIds := d.workerIds
  pinned := d.pinned
  createdAt := d.createdAt
  expiresAt := d.expiresAt
  hits := d.hits
  lastUsedAt := d.lastUsedAt

/-- The JSON bodies of the answers.  `missing` and `expired` stand for the texts
`cache {cid!r} not found` and `cache {cid!r} expired`, `invalid` for `str(exc)`. -/
inductive Body where
  | cache (d : DescriptorDict)
  | deleted (cacheId : String)
  | notFound
  | missing (cacheId : String)
  | expired (cacheId : String)
  | invalid (exc : Raised)
  | uriTooLong
deriving DecidableEq, Repr

structure Response where
  code : Nat
  body : Body
deriving DecidableEq, Repr

/-! ## Routing -/

inductive Action where
  | pin
  | unpin
  | ttl
deriving DecidableEq, Repr

/-- The calls that name one cache. -/
inductive CacheCall where
  | inspect (cacheId : String)
  | mutate (cacheId : String) (action : Action)
  | delete (cacheId : String)
deriving DecidableEq, Repr

/-- The routes that name no cache. -/
inductive Collection where
  | health
  | stats
  | caches
  | register
deriving DecidableEq, Repr

inductive Route where
  | collection (c : Collection)
  | call (c : CacheCall)
  | notFound
deriving DecidableEq, Repr

/-- `"/v1/caches/"`. -/
def cachesPrefix : List Char :=
  "/v1/caches/".toList

/-- `_cache_id`. -/
def cacheIdOf (path : List Char) : Option String :=
  if cachesPrefix <+: path ∧ '/' ∉ path.drop cachesPrefix.length then
    if path.drop cachesPrefix.length = [] then none
    else some (String.ofList (path.drop cachesPrefix.length))
  else none

/-- `(("/pin", "pin"), ("/unpin", "unpin"), ("/ttl", "ttl"))`. -/
def actions : List (List Char × Action) :=
  [("/pin".toList, .pin), ("/unpin".toList, .unpin), ("/ttl".toList, .ttl)]

def routeGet (path : List Char) : Route :=
  if path = "/healthz".toList then .collection .health
  else if path = "/v1/stats".toList then .collection .stats
  else if path = "/v1/caches".toList then .collection .caches
  else
    match cacheIdOf path with
    | some cid => .call (.inspect cid)
    | none => .notFound

/-- The slice keeps nothing when the prefix and the suffix overlap. -/
def routePost (path : List Char) : Route :=
  if path = "/v1/caches".toList then .collection .register
  else
    match actions.find? fun entry => entry.1 <:+ path ∧ cachesPrefix <+: path with
    | some (suffix, action) =>
        .call (.mutate (String.ofList
          ((path.take (path.length - suffix.length)).drop cachesPrefix.length)) action)
    | none => .notFound

def routeDelete (path : List Char) : Route :=
  match cacheIdOf path with
  | some cid => .call (.delete cid)
  | none => .notFound

/-- `do_GET`, `do_POST` and `do_DELETE` up to the handler they choose. -/
def route (r : Request) : Route :=
  match r.method with
  | .get => routeGet (urlPath r.target)
  | .post => routePost (urlPath r.target)
  | .delete => routeDelete (urlPath r.target)

/-! ## Actions -/

variable {σ : Type} [StorageBackend σ]

/-- The clock readings of one request: the test for expiry, the stamp of a new
lifetime, and the test before the answer. -/
structure Readings where
  check : Time
  stamp : Time
  again : Time

/-- `_with_cache(cid, lambda d: self._send(200, descriptor_to_dict(d)))`. -/
def withCache (s : ExplicitKVCache σ) (cid : String) (clock : Time) :
    Except Raised Response × ExplicitKVCache σ :=
  let out := s.get cid clock
  match out.1 with
  | .ok d => (.ok ⟨200, .cache (descriptorToDict d)⟩, out.2)
  | .error (.cacheNotFound _) => (.ok ⟨404, .missing cid⟩, out.2)
  | .error (.cacheExpired _) => (.ok ⟨410, .expired cid⟩, out.2)
  | .error err => (.error err, out.2)

/-- `float(self._read_json()["ttl"])`. -/
def readTtl (ttl : Option Ticks) : Except Raised Ticks :=
  match ttl with
  | some seconds => .ok seconds
  | none => .error (.keyError "ttl")

/-- The `try` block of `_mutate`. -/
def act (s : ExplicitKVCache σ) (cid : String) (action : Action) (ttl : Except Raised Ticks)
    (readings : Readings) : Except Raised Unit × ExplicitKVCache σ :=
  match action with
  | .pin => s.pin cid readings.check
  | .unpin => s.unpin cid readings.check
  | .ttl =>
      match ttl with
      | .error err => (.error err, s)
      | .ok seconds =>
          let out := s.extendTtl cid (.float seconds) readings.check readings.stamp
          (out.1.map fun _ => (), out.2)

/-- The last `get` stands outside the `try` block. -/
def mutate (s : ExplicitKVCache σ) (cid : String) (action : Action) (ttl : Except Raised Ticks)
    (readings : Readings) : Except Raised Response × ExplicitKVCache σ :=
  let out := act s cid action ttl readings
  match out.1 with
  | .error (.cacheNotFound _) => (.ok ⟨404, .missing cid⟩, out.2)
  | .error (.cacheExpired _) => (.ok ⟨410, .expired cid⟩, out.2)
  | .error (.keyError key) => (.ok ⟨400, .invalid (.keyError key)⟩, out.2)
  | .error (.valueError message) => (.ok ⟨400, .invalid (.valueError message)⟩, out.2)
  | .error err => (.error err, out.2)
  | .ok () =>
      let final := out.2.get cid readings.again
      (final.1.map fun d => ⟨200, .cache (descriptorToDict d)⟩, final.2)

def perform (s : ExplicitKVCache σ) (call : CacheCall) (ttl : Option Ticks) (readings : Readings) :
    Except Raised Response × ExplicitKVCache σ :=
  match call with
  | .inspect cid => withCache s cid readings.check
  | .mutate cid action => mutate s cid action (readTtl ttl) readings
  | .delete cid => (.ok ⟨200, .deleted cid⟩, s.delete cid)

/-- The longest request line that `http.server` reads, in bytes. -/
def maxRequestLine : Nat := 65536

/-- The bytes of `GET target HTTP/1.1` and the line end. -/
def requestLine (method : Method) (target : List Char) : List Char :=
  method.text ++ ' ' :: target ++ " HTTP/1.1\r\n".toList

/-- A line that is too long is answered with 414 before anything is routed. -/
def serve (collection : Collection → ExplicitKVCache σ →
      Except Raised Response × ExplicitKVCache σ)
    (s : ExplicitKVCache σ) (r : Request) (readings : Readings) :
    Except Raised Response × ExplicitKVCache σ :=
  if maxRequestLine < (requestLine r.method r.target).length then (.ok ⟨414, .uriTooLong⟩, s)
  else
    match route r with
    | .collection c => collection c s
    | .call call => perform s call r.ttl readings
    | .notFound => (.ok ⟨404, .notFound⟩, s)

end LlmCache.Control
