import LlmCache.Engine.Descriptors

/-!
# Calls on absent, expired and live caches

A call that tests its cache ends in one of three ways: it raises without
touching anything, it deletes the cache and raises, or it edits the descriptor
and walks over the chunks.
-/

namespace LlmCache.Engine.Liveness

open Errors Lib Payload LlmCache.Types Store ExplicitKVCache Descriptors

variable {σ : Type} [StorageBackend σ] {blake2b : List UInt8 → String} {s : ExplicitKVCache σ}
  {op : EngineOp} {cid : String} {clock : Time} {d : CacheDescriptor}

/-- What a call that cannot go on answers; `exists` catches the exception. -/
def refusal : EngineOp → Raised → Except Raised EngineReply
  | .exists .., _ => .ok (.flag false)
  | _, err => .error err

/-- What a call leaves of the expiry of a live descriptor. -/
def renewed : EngineOp → Option Ticks → Option Ticks
  | .extendTtl _ ttl _ stamp, expiresAt =>
      match ttl.addedTo stamp with
      | .ok renewal => some renewal
      | .error _ => expiresAt
  | _, expiresAt => expiresAt

/-- What a call leaves of the pin flag of a live descriptor. -/
def flagged : EngineOp → Bool → Bool
  | .pin .., _ => true
  | .unpin .., _ => false
  | _, pinned => pinned

/-- What a call on a live cache does to the store. -/
def visited (d : CacheDescriptor) : EngineOp → σ → σ
  | .load cid n w _, store =>
      (loadLoop cid w (List.range (min (n.getD d.numChunks) d.numChunks).toNat) store).2
  | .pin cid _, store => (chunkKeys cid d).foldl KeyedStore.pin store
  | .unpin cid _, store => (chunkKeys cid d).foldl KeyedStore.unpin store
  | _, store => store

/-- The kinds of calls. -/
inductive Kind : EngineOp → Prop
  | registers (r : Registration) (newId : String) (now : Time) : Kind (.register r newId now)
  | puts (id : String) (idx : Int) (payload : KVPayload) (w : Int) (pin : Bool) :
      Kind (.putChunk id idx payload w pin)
  | commits (c : Commit) (now : Time) : Kind (.commit c now)
  | deletes (id : String) : Kind (.delete id)
  | tests {op : EngineOp} (id : String) (reading : Time) (h : tests op = some (id, reading)) :
      Kind op
  | sweeps {op : EngineOp} (now again : Time) (h : sweeps op = some (now, again)) : Kind op

theorem kind (op : EngineOp) : Kind op := by
  cases op with
  | register => exact .registers ..
  | putChunk => exact .puts ..
  | commit => exact .commits ..
  | delete => exact .deletes _
  | list => exact .sweeps _ _ rfl
  | sweepExpired => exact .sweeps _ _ rfl
  | get => exact .tests _ _ rfl
  | «exists» => exact .tests _ _ rfl
  | lookup => exact .tests _ _ rfl
  | load => exact .tests _ _ rfl
  | extendTtl => exact .tests _ _ rfl
  | pin => exact .tests _ _ rfl
  | unpin => exact .tests _ _ rfl

/-- The calls that test whether a cache is live. -/
inductive Tests (cid : String) (clock : Time) : EngineOp → Prop
  | get : Tests cid clock (.get cid clock)
  | exists : Tests cid clock (.exists cid clock)
  | lookup (request : Option (List Int)) (stamp : Time) :
      Tests cid clock (.lookup cid request clock stamp)
  | load (numChunks : Option Int) (workerId : Int) :
      Tests cid clock (.load cid numChunks workerId clock)
  | extendTtl (ttl : Ttl) (stamp : Time) : Tests cid clock (.extendTtl cid ttl clock stamp)
  | pin : Tests cid clock (.pin cid clock)
  | unpin : Tests cid clock (.unpin cid clock)

theorem tests_cases (h : tests op = some (cid, clock)) : Tests cid clock op := by
  cases op <;> cases h <;> constructor

theorem step_of_sweep {now again : Time} (h : sweeps op = some (now, again)) :
    (step blake2b s op).2 = (expired s now again).foldl (fun s d => s.delete d.cacheId) s := by
  cases op with
  | list => cases h; rfl
  | sweepExpired => cases h; rfl
  | _ => cases h

theorem step_of_raised (htests : tests op = some (cid, clock)) {err : Raised}
    {s' : ExplicitKVCache σ} (hres : s.liveDescriptor cid clock = (.error err, s')) :
    step blake2b s op = (refusal op err, s') := by
  cases tests_cases htests with
  | get => simp only [step, ExplicitKVCache.get, hres]; rfl
  | «exists» => simp only [step, exists', hres]; rfl
  | lookup => simp only [step, ExplicitKVCache.lookup, hres]; rfl
  | load => simp only [step, ExplicitKVCache.load, hres]; rfl
  | extendTtl => simp only [step, ExplicitKVCache.extendTtl, hres]; rfl
  | pin => simp only [step, ExplicitKVCache.pin, hres]; rfl
  | unpin => simp only [step, ExplicitKVCache.unpin, hres]; rfl

/-- A cache without a descriptor is not found, and nothing changes. -/
theorem step_of_absent (htests : tests op = some (cid, clock))
    (hnone : s.descriptors.lookup cid = none) :
    step blake2b s op = (refusal op (.cacheNotFound cid), s) := by
  apply step_of_raised htests
  simp [liveDescriptor, hnone]

/-- An expired cache is deleted, and not served. -/
theorem step_of_expired (htests : tests op = some (cid, clock))
    (hd : s.descriptors.lookup cid = some d) (hexpired : d.isExpired none clock = true) :
    step blake2b s op = (refusal op (.cacheExpired cid), s.delete cid) := by
  apply step_of_raised htests
  simp [liveDescriptor, hd, hexpired]

/-- What a call does to a live cache. -/
structure Visit (s : ExplicitKVCache σ) (op : EngineOp) (cid : String) (d d' : CacheDescriptor)
    (s' : ExplicitKVCache σ) : Prop where
  same : SameCache d d'
  expiresAt : d'.expiresAt = renewed op d.expiresAt
  pinned : d'.pinned = flagged op d.pinned
  lookup : ∀ k, s'.descriptors.lookup k = if k = cid then some d' else s.descriptors.lookup k
  store : s'.store = visited d op s.store

omit [StorageBackend σ] in
private theorem lookup_self (hd : s.descriptors.lookup cid = some d) (k : String) :
    s.descriptors.lookup k = if k = cid then some d else s.descriptors.lookup k := by
  split_ifs with hk
  · rw [hk, hd]
  · rfl

/-- A live cache stays, with its descriptor edited. -/
theorem step_of_live (hd : FindsLive s op cid d) :
    ∃ d', Visit s op cid d d' (step blake2b s op).2 := by
  obtain ⟨hd, clock, htests, hlive⟩ := hd
  have hres : s.liveDescriptor cid clock = (.ok d, s) := by simp [liveDescriptor, hd, hlive]
  cases tests_cases htests with
  | get =>
      simp only [step, ExplicitKVCache.get, hres]
      exact ⟨d, .refl d, rfl, rfl, lookup_self hd, rfl⟩
  | «exists» =>
      simp only [step, exists', hres]
      exact ⟨d, .refl d, rfl, rfl, lookup_self hd, rfl⟩
  | lookup tokens stamp =>
      simp only [step, ExplicitKVCache.lookup, hres]
      cases matchedChunks blake2b d tokens with
      | error err => exact ⟨d, .refl d, rfl, rfl, lookup_self hd, rfl⟩
      | ok m =>
          refine ⟨{ d with hits := d.hits + 1, lastUsedAt := some stamp },
            ⟨rfl, rfl, rfl, rfl, rfl⟩, rfl, rfl, fun k => ?_, rfl⟩
          exact OrderedDict.lookup_setItem ..
  | load n w =>
      simp only [step, ExplicitKVCache.load, hres]
      refine ⟨d, .refl d, rfl, rfl, lookup_self hd, ?_⟩
      cases n with
      | none => simp [visited]
      | some n => rfl
  | extendTtl ttl stamp =>
      simp only [step, ExplicitKVCache.extendTtl, hres]
      cases hsum : ttl.addedTo stamp with
      | error err =>
          exact ⟨d, .refl d, by simp only [renewed, hsum], rfl, lookup_self hd, rfl⟩
      | ok renewal =>
          refine ⟨{ d with expiresAt := some renewal }, ⟨rfl, rfl, rfl, rfl, rfl⟩,
            by simp only [renewed, hsum], rfl, fun k => ?_, rfl⟩
          exact OrderedDict.lookup_setItem ..
  | pin =>
      simp only [step, ExplicitKVCache.pin, hres]
      refine ⟨{ d with pinned := true }, ⟨rfl, rfl, rfl, rfl, rfl⟩, rfl, rfl, fun k => ?_, rfl⟩
      exact OrderedDict.lookup_setItem ..
  | unpin =>
      simp only [step, ExplicitKVCache.unpin, hres]
      refine ⟨{ d with pinned := false }, ⟨rfl, rfl, rfl, rfl, rfl⟩, rfl, rfl, fun k => ?_, rfl⟩
      exact OrderedDict.lookup_setItem ..

end LlmCache.Engine.Liveness
