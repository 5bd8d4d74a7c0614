import LlmCache.Control.Server

/-!
# The command line client

The commands that name one cache, and the request that each of them sends.
-/

namespace LlmCache.Control

open Errors Lib LlmCache.Types Store Engine

inductive Command where
  | get
  | pin
  | unpin
  | ttl (seconds : Ticks)
  | delete
deriving DecidableEq, Repr

namespace Command

def method : Command → Method
  | .get => .get
  | .pin | .unpin | .ttl _ => .post
  | .delete => .delete

/-- What the command writes behind the id. -/
def suffix : Command → List Char
  | .get | .delete => []
  | .pin => "/pin".toList
  | .unpin => "/unpin".toList
  | .ttl _ => "/ttl".toList

/-- `{"ttl": a.seconds}`, where the command has a body. -/
def body : Command → Option Ticks
  | .ttl seconds => some seconds
  | _ => none

/-- `f"/v1/caches/{a.cache_id}"` and its suffix. -/
def path (cmd : Command) (cacheId : String) : List Char :=
  cachesPrefix ++ cacheId.toList ++ cmd.suffix

end Command

/-- The URL of a control server: `http`, a host, and the slashes that `_request`
takes away. -/
structure ServerUrl where
  host : List Char
  host_ne : host ≠ []
  host_chars : ∀ c ∈ host, c ≠ '/' ∧ c ≠ '#' ∧ c ≠ '?'
  slashes : Nat

namespace ServerUrl

def text (server : ServerUrl) : List Char :=
  "http://".toList ++ server.host ++ List.replicate server.slashes '/'

end ServerUrl

theorem defaultHost_ne : "127.0.0.1:8975".toList ≠ [] := by decide

theorem defaultHost_chars : ∀ c ∈ "127.0.0.1:8975".toList, c ≠ '/' ∧ c ≠ '#' ∧ c ≠ '?' := by
  have hall : ("127.0.0.1:8975".toList.all fun c => c ≠ '/' ∧ c ≠ '#' ∧ c ≠ '?') = true := by decide
  intro c hc
  exact of_decide_eq_true (List.all_eq_true.mp hall c hc)

/-- `http://127.0.0.1:8975`. -/
def defaultServer : ServerUrl where
  host := "127.0.0.1:8975".toList
  host_ne := defaultHost_ne
  host_chars := defaultHost_chars
  slashes := 0

/-- `_request` up to the moment when the request is on the wire.  `http.client`
refuses what is not printable, and cannot encode what is not ASCII. -/
def request (server : List Char) (method : Method) (path : List Char) (body : Option Ticks) :
    Except Raised Request :=
  match selector (server.rdropWhile (· = '/') ++ path) with
  | none => .error (.valueError "unknown url type")
  | some target =>
      if target.any fun c => c.toNat ≤ 32 || c.toNat = 127 then
        .error (.invalidUrl target)
      else if target.any fun c => 128 ≤ c.toNat then .error .unicodeEncodeError
      else .ok ⟨method, target, body⟩

/-- How a command ends: with an error of the client, or with what the server
made of the request. -/
inductive Outcome where
  | refused (err : Raised)
  | served (reply : Except Raised Response)
deriving DecidableEq

variable {σ : Type} [StorageBackend σ]

/-- A command for a cache, against the engine behind the server. -/
def run (collection : Collection → ExplicitKVCache σ →
      Except Raised Response × ExplicitKVCache σ)
    (server : ServerUrl) (cmd : Command) (cacheId : String) (s : ExplicitKVCache σ)
    (readings : Readings) : Outcome × ExplicitKVCache σ :=
  match request server.text cmd.method (cmd.path cacheId) cmd.body with
  | .error err => (.refused err, s)
  | .ok r =>
      let out := serve collection s r readings
      (.served out.1, out.2)

end LlmCache.Control
