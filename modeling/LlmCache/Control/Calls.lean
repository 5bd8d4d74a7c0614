import LlmCache.Control.Server
import LlmCache.Engine.Descriptors

/-!
# What a call on one cache reads and touches

The handlers look up the descriptor of the cache they are called for, replace or
remove it, and call the store on the chunks of that cache.
-/

namespace LlmCache.Control

open Errors Lib Payload LlmCache.Types Store Engine ExplicitKVCache Descriptors KeyedStore

variable {σ : Type} [StorageBackend σ] {s s' s'' : ExplicitKVCache σ} {cid : String}

/-- The second engine is the first but for one cache: its descriptor, and what
calls on its chunks have made of the store. -/
structure Touches (cid : String) (s s' : ExplicitKVCache σ) : Prop where
  lookup : ∀ k, k ≠ cid → s'.descriptors.lookup k = s.descriptors.lookup k
  store : ∃ calls : List (Op ChunkKey KVPayload),
    (∀ op ∈ calls, ∃ key, op.key = some key ∧ key.cacheId = cid) ∧
      s'.store = (machine σ).exec s.store calls

namespace Touches

theorem refl (cid : String) (s : ExplicitKVCache σ) : Touches cid s s where
  lookup _ _ := rfl
  store := ⟨[], by simp, rfl⟩

theorem trans (h : Touches cid s s') (h' : Touches cid s' s'') : Touches cid s s'' where
  lookup k hk := (h'.lookup k hk).trans (h.lookup k hk)
  store := by
    obtain ⟨calls, hcalls, hstore⟩ := h.store
    obtain ⟨calls', hcalls', hstore'⟩ := h'.store
    refine ⟨calls ++ calls', fun op hop => ?_, ?_⟩
    · rcases List.mem_append.mp hop with hop | hop
      · exact hcalls op hop
      · exact hcalls' op hop
    · rw [Machine.exec_append, ← hstore, hstore']

theorem publish (s : ExplicitKVCache σ) (cid : String) (d : CacheDescriptor) :
    Touches cid s (s.publish cid d) where
  lookup _ hk := lookup_publish_other s d hk
  store := ⟨[], by simp, rfl⟩

theorem exec_chunks {f : ChunkKey → Op ChunkKey KVPayload} (hf : ∀ key, (f key).key = some key)
    (store : σ) (cid : String) (d : CacheDescriptor) :
    ∃ calls : List (Op ChunkKey KVPayload),
      (∀ op ∈ calls, ∃ key, op.key = some key ∧ key.cacheId = cid) ∧
        (chunkKeys cid d).foldl (fun store key => (step store (f key)).2) store =
          (machine σ).exec store calls := by
  refine ⟨(chunkKeys cid d).map f, fun op hop => ?_, ?_⟩
  · obtain ⟨key, hkey, rfl⟩ := List.mem_map.mp hop
    refine ⟨key, hf key, ?_⟩
    simp only [chunkKeys, List.mem_flatMap, List.mem_map] at hkey
    obtain ⟨w, _, i, _, rfl⟩ := hkey
    rfl
  · induction chunkKeys cid d generalizing store with
    | nil => rfl
    | cons key rest ih => exact ih (step store (f key)).2

theorem delete (s : ExplicitKVCache σ) (cid : String) : Touches cid s (s.delete cid) where
  lookup k hk := by rw [lookup_delete, if_neg hk]
  store := by
    unfold ExplicitKVCache.delete
    cases s.descriptors.lookup cid with
    | none => exact ⟨[], by simp, rfl⟩
    | some d => exact exec_chunks (f := .remove) (fun _ => rfl) s.store cid d

theorem withStore (h : Touches cid s s') {f : ChunkKey → Op ChunkKey KVPayload}
    (hf : ∀ key, (f key).key = some key) (d : CacheDescriptor) :
    Touches cid s { s' with
      store := (chunkKeys cid d).foldl (fun store key => (step store (f key)).2) s'.store } :=
  h.trans ⟨fun _ _ => rfl, exec_chunks hf s'.store cid d⟩

theorem liveDescriptor (s : ExplicitKVCache σ) (cid : String) (clock : Time) :
    Touches cid s (s.liveDescriptor cid clock).2 := by
  rcases liveDescriptor_cases s cid clock with ⟨_, hres⟩ | ⟨d, _, ⟨_, hres⟩ | ⟨_, hres⟩⟩
  · rw [hres]
    exact refl cid s
  · rw [hres]
    exact delete s cid
  · rw [hres]
    exact refl cid s

theorem act (s : ExplicitKVCache σ) (cid : String) (action : Action) (ttl : Except Raised Ticks)
    (readings : Readings) : Touches cid s (act s cid action ttl readings).2 := by
  have hlive := liveDescriptor s cid readings.check
  cases action with
  | pin =>
      simp only [Control.act, ExplicitKVCache.pin]
      cases (s.liveDescriptor cid readings.check).1 with
      | error err => exact hlive
      | ok d => exact (hlive.trans (publish _ cid _)).withStore (f := .pin) (fun _ => rfl) d
  | unpin =>
      simp only [Control.act, ExplicitKVCache.unpin]
      cases (s.liveDescriptor cid readings.check).1 with
      | error err => exact hlive
      | ok d => exact (hlive.trans (publish _ cid _)).withStore (f := .unpin) (fun _ => rfl) d
  | ttl =>
      cases ttl with
      | error err => exact refl cid s
      | ok seconds =>
          simp only [Control.act, ExplicitKVCache.extendTtl, Ttl.addedTo]
          cases (s.liveDescriptor cid readings.check).1 with
          | error err => exact hlive
          | ok d => exact hlive.trans (publish _ cid _)

end Touches

/-- The cache that a call names. -/
def CacheCall.cacheId : CacheCall → String
  | .inspect cid | .mutate cid _ | .delete cid => cid

theorem snd_withCache (s : ExplicitKVCache σ) (cid : String) (clock : Time) :
    (withCache s cid clock).2 = (s.liveDescriptor cid clock).2 := by
  unfold withCache ExplicitKVCache.get
  dsimp only
  split <;> rfl

theorem snd_mutate (s : ExplicitKVCache σ) (cid : String) (action : Action)
    (ttl : Except Raised Ticks) (readings : Readings) :
    (mutate s cid action ttl readings).2 = (act s cid action ttl readings).2 ∨
      (mutate s cid action ttl readings).2 =
        ((act s cid action ttl readings).2.liveDescriptor cid readings.again).2 := by
  unfold mutate
  dsimp only
  split
  all_goals first | exact .inl rfl | exact .inr rfl

/-- A call touches the cache that it names, and no other. -/
theorem touches_perform (s : ExplicitKVCache σ) (call : CacheCall) (ttl : Option Ticks)
    (readings : Readings) : Touches call.cacheId s (perform s call ttl readings).2 := by
  cases call with
  | inspect cid =>
      simp only [perform, snd_withCache]
      exact .liveDescriptor s cid _
  | mutate cid action =>
      have hact := Touches.act s cid action (readTtl ttl) readings
      rcases snd_mutate s cid action (readTtl ttl) readings with h | h
      · simp only [perform, h]
        exact hact
      · simp only [perform, h]
        exact hact.trans (.liveDescriptor _ cid _)
  | delete cid => exact .delete s cid

/-! ## Two engines with the same descriptor -/

theorem liveDescriptor_congr (h : s'.descriptors.lookup cid = s.descriptors.lookup cid)
    (clock : Time) :
    (s'.liveDescriptor cid clock).1 = (s.liveDescriptor cid clock).1 ∧
      (s'.liveDescriptor cid clock).2.descriptors.lookup cid =
        (s.liveDescriptor cid clock).2.descriptors.lookup cid := by
  unfold ExplicitKVCache.liveDescriptor
  rw [h]
  cases s.descriptors.lookup cid with
  | none => exact ⟨rfl, h⟩
  | some d =>
      dsimp only
      split
      · exact ⟨rfl, by simp [lookup_delete]⟩
      · exact ⟨rfl, h⟩

theorem act_congr (h : s'.descriptors.lookup cid = s.descriptors.lookup cid) (action : Action)
    (ttl : Except Raised Ticks) (readings : Readings) :
    (act s' cid action ttl readings).1 = (act s cid action ttl readings).1 ∧
      (act s' cid action ttl readings).2.descriptors.lookup cid =
        (act s cid action ttl readings).2.descriptors.lookup cid := by
  obtain ⟨hsame, hlookup⟩ := liveDescriptor_congr h readings.check
  cases action with
  | pin =>
      simp only [act, ExplicitKVCache.pin, hsame]
      cases (s.liveDescriptor cid readings.check).1 with
      | error err => exact ⟨rfl, hlookup⟩
      | ok d => exact ⟨rfl, by simp only [lookup_publish_self]⟩
  | unpin =>
      simp only [act, ExplicitKVCache.unpin, hsame]
      cases (s.liveDescriptor cid readings.check).1 with
      | error err => exact ⟨rfl, hlookup⟩
      | ok d => exact ⟨rfl, by simp only [lookup_publish_self]⟩
  | ttl =>
      cases ttl with
      | error err => exact ⟨rfl, h⟩
      | ok seconds =>
          simp only [act, ExplicitKVCache.extendTtl, Ttl.addedTo, hsame]
          cases (s.liveDescriptor cid readings.check).1 with
          | error err => exact ⟨rfl, hlookup⟩
          | ok d => exact ⟨rfl, by simp only [lookup_publish_self]⟩

theorem withCache_congr (h : s'.descriptors.lookup cid = s.descriptors.lookup cid) (clock : Time) :
    (withCache s' cid clock).1 = (withCache s cid clock).1 := by
  obtain ⟨hsame, _⟩ := liveDescriptor_congr h clock
  simp only [withCache, ExplicitKVCache.get, hsame]
  cases (s.liveDescriptor cid clock).1 with
  | ok d => rfl
  | error err => cases err <;> rfl

theorem mutate_congr (h : s'.descriptors.lookup cid = s.descriptors.lookup cid) (action : Action)
    (ttl : Except Raised Ticks) (readings : Readings) :
    (mutate s' cid action ttl readings).1 = (mutate s cid action ttl readings).1 := by
  obtain ⟨hsame, hlookup⟩ := act_congr h action ttl readings
  obtain ⟨hagain, _⟩ := liveDescriptor_congr hlookup readings.again
  simp only [mutate, ExplicitKVCache.get, hsame, hagain]
  cases (act s cid action ttl readings).1 with
  | ok _ => rfl
  | error err => cases err <;> rfl

/-- What a call answers depends on the descriptor of the cache that it names, and
on nothing else. -/
theorem perform_congr {call : CacheCall}
    (h : s'.descriptors.lookup call.cacheId = s.descriptors.lookup call.cacheId)
    (ttl : Option Ticks) (readings : Readings) :
    (perform s' call ttl readings).1 = (perform s call ttl readings).1 := by
  cases call with
  | inspect cid => exact withCache_congr h _
  | mutate cid action => exact mutate_congr h action _ readings
  | delete cid => rfl

end LlmCache.Control
