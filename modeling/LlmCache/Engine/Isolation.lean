import LlmCache.Engine.Liveness
import LlmCache.Engine.Prefix
import LlmCache.Engine.Unbounded

/-!
# Caches with different ids

Two engines agree on an id when they hold the same descriptor and the same
chunks under it.  Calls on the id cannot tell them apart, and calls on other
ids keep the agreement, over a store that loses nothing.
-/

namespace LlmCache.Engine.Isolation

open Errors Lib Payload LlmCache.Types Store ExplicitKVCache Descriptors Chunks Prefix Unbounded
  Liveness

open LosslessStore (view)

variable {σ : Type} [LosslessBackend σ] {blake2b : List UInt8 → String}

/-- The id that a call is about; a sweep is about all of them. -/
def callId : EngineOp → Option String
  | .register r newId _ => some (resolveId r.cacheId newId)
  | .commit c _ => some c.cacheId
  | .putChunk cid .. | .delete cid => some cid
  | .get cid _ | .exists cid _ | .lookup cid .. | .load cid .. | .extendTtl cid .. | .pin cid _
  | .unpin cid _ => some cid
  | .list .. | .sweepExpired .. => none

theorem callId_of_tests {op : EngineOp} {cid : String} {clock : Time}
    (h : tests op = some (cid, clock)) : callId op = some cid := by
  cases op <;> cases h <;> rfl

theorem callId_of_deletes {op : EngineOp} {cid : String}
    {d : CacheDescriptor} (h : op = .delete cid ∨
      ∃ clock, tests op = some (cid, clock) ∧ d.isExpired none clock) :
    callId op = some cid := by
  rcases h with rfl | ⟨clock, htests, _⟩
  · rfl
  · exact callId_of_tests htests

theorem callId_of_sweeps {op : EngineOp} {now again : Time} (h : sweeps op = some (now, again)) :
    callId op = none := by
  cases op <;> cases h <;> rfl

theorem lookup_step_other {τ : Type} [StorageBackend τ] (s : ExplicitKVCache τ) {op : EngineOp}
    {k : String} (hop : callId op = some k) {c : String} (hc : c ≠ k) :
    (step blake2b s op).2.descriptors.lookup c = s.descriptors.lookup c := by
  have hchange : Change blake2b s op (step blake2b s op).1 (step blake2b s op).2 :=
    change_step s op
  generalize (step blake2b s op).1 = out, (step blake2b s op).2 = t at hchange ⊢
  cases hchange with
  | unchanged => rfl
  | registered hend =>
      cases hop
      cases hend with
      | refused => rfl
      | full => rfl
      | overflow => rfl
      | published => exact lookup_publish_other _ _ hc
  | chunkPut => rfl
  | committed => cases hop; exact lookup_publish_other s _ hc
  | @deleted _ _ id _ hd _ hwhy =>
      obtain rfl := Option.some.inj (hop.symm.trans (callId_of_deletes hwhy))
      rw [lookup_delete, if_neg hc]
  | swept hsweeps =>
      rw [callId_of_sweeps hsweeps] at hop
      cases hop
  | touched hd =>
      obtain ⟨_, _, htests, _⟩ := hd
      obtain rfl := Option.some.inj (hop.symm.trans (callId_of_tests htests))
      exact lookup_publish_other s _ hc
  | pinned => cases hop; exact lookup_publish_other s _ hc
  | unpinned => cases hop; exact lookup_publish_other s _ hc
  | loaded => rfl

theorem lookup_step_none {τ : Type} [StorageBackend τ] {s : ExplicitKVCache τ} {op : EngineOp}
    {c : String} (hop : callId op ≠ some c) (hnone : s.descriptors.lookup c = none) :
    (step blake2b s op).2.descriptors.lookup c = none := by
  cases hid : callId op with
  | some k =>
      have hc : c ≠ k := by
        rintro rfl
        exact hop hid
      rw [lookup_step_other s hid hc, hnone]
  | none =>
      cases kind op with
      | sweeps now again hsweeps =>
          rw [step_of_sweep hsweeps, lookup_foldl_delete, hnone]
          exact ite_self _
      | registers => cases hid
      | puts => cases hid
      | commits => cases hid
      | deletes => cases hid
      | tests _ _ htests =>
          rw [callId_of_tests htests] at hid
          cases hid

/-- The engines are configured alike, and agree on the cache under the id. -/
structure Agree (b : String) (s s' : ExplicitKVCache σ) : Prop where
  settings : SameSettings s s'
  lookup : s'.descriptors.lookup b = s.descriptors.lookup b
  chunks : SameChunks b s.store s'.store

variable {b : String} {s s' : ExplicitKVCache σ}

theorem Agree.refl (b : String) (s : ExplicitKVCache σ) : Agree b s s :=
  ⟨.refl s, rfl, fun _ _ => rfl⟩

/-! ## Calls on other ids -/

theorem Agree.of_other (h : Agree b s s') {k : String} (hk : k ≠ b) {t : ExplicitKVCache σ}
    (hsettings : SameSettings s t)
    (hlookup : ∀ c, c ≠ k → t.descriptors.lookup c = s.descriptors.lookup c)
    (hview : ∀ key : ChunkKey, key.cacheId ≠ k → view t.store key = view s.store key) :
    Agree b t s' where
  settings := ⟨h.settings.1.trans hsettings.1.symm, h.settings.2.trans hsettings.2.symm⟩
  lookup := by rw [h.lookup, hlookup b hk.symm]
  chunks := by
    rintro key rfl
    rw [h.chunks key rfl, hview key hk.symm]

theorem view_stored_of_ne (s : ExplicitKVCache σ) (r : Registration) (newId : String)
    {key : ChunkKey} (hkey : key.cacheId ≠ resolveId r.cacheId newId) :
    view (stored s r newId).store key = view s.store key :=
  view_stored_other s fun _ hput => hkey (cacheId_of_mem_putsOf hput)

theorem agree_step_other (h : Agree b s s') {op : EngineOp} {k : String}
    (hop : callId op = some k) (hk : k ≠ b) : Agree b (step blake2b s op).2 s' := by
  have hchange : Change blake2b s op (step blake2b s op).1 (step blake2b s op).2 :=
    change_step s op
  have hsettings := sameSettings_of_change hchange
  have hlookup : ∀ {c}, c ≠ k → (step blake2b s op).2.descriptors.lookup c =
      s.descriptors.lookup c := fun hc => lookup_step_other s hop hc
  generalize (step blake2b s op).1 = out, (step blake2b s op).2 = t at hchange hsettings hlookup ⊢
  apply h.of_other hk hsettings
  · intro c hc
    exact hlookup hc
  · intro key hkey
    cases hchange with
    | unchanged => rfl
    | registered hend =>
        cases hop
        cases hend with
        | refused => rfl
        | full => exact view_stored_of_ne s _ _ hkey
        | overflow => exact view_stored_of_ne s _ _ hkey
        | published => exact view_stored_of_ne s _ _ hkey
    | @chunkPut id idx payload w pin =>
        cases hop
        have hne : key ≠ ⟨k, idx, w⟩ := by
          rintro rfl
          exact hkey rfl
        simp [hne]
    | committed => rfl
    | @deleted _ _ id _ hd _ hwhy =>
        obtain rfl := Option.some.inj (hop.symm.trans (callId_of_deletes hwhy))
        exact view_delete_other s hkey
    | swept hsweeps =>
        rw [callId_of_sweeps hsweeps] at hop
        cases hop
    | touched => rfl
    | pinned => exact congrFun (view_foldl_pin _ _) key
    | unpinned => exact congrFun (view_foldl_unpin _ _) key
    | loaded => exact congrFun (view_loadLoop _ _ _ _) key

/-! ## Calls on the id -/

theorem loadLoop_congr {store store' : σ} (h : SameChunks b store store') (worker : Int)
    (idxs : List Nat) : (loadLoop b worker idxs store').1 = (loadLoop b worker idxs store).1 := by
  induction idxs generalizing store store' with
  | nil => rfl
  | cons idx rest ih =>
      have hnext : SameChunks b (KeyedStore.get store ⟨b, idx, worker⟩).2
          (KeyedStore.get store' ⟨b, idx, worker⟩).2 := by
        intro key hkey
        rw [LosslessStore.view_get, LosslessStore.view_get, h key hkey]
      simp only [loadLoop, LosslessStore.get_ok, h ⟨b, idx, worker⟩ rfl]
      cases view store ⟨b, idx, worker⟩ with
      | none => rfl
      | some payload => simp only [ih hnext]

theorem sameChunks_put {store store' : σ} (h : SameChunks b store store') (k : ChunkKey)
    (obj : KVPayload) (pin : Bool) :
    SameChunks b (KeyedStore.put store k obj pin).2 (KeyedStore.put store' k obj pin).2 := by
  intro key hkey
  simp only [LosslessStore.view_put, Function.update_apply, h key hkey]

theorem sameChunks_putChunks {store store' : σ} (h : SameChunks b store store') (pin : Bool)
    (puts : List (ChunkKey × KVPayload)) :
    SameChunks b (putChunks pin puts store).2 (putChunks pin puts store').2 := by
  induction puts generalizing store store' with
  | nil => exact h
  | cons chunk rest ih =>
      rw [snd_putChunks_cons, snd_putChunks_cons]
      exact ih (sameChunks_put h _ _ _)

omit [LosslessBackend σ] in
theorem buildDescriptor_congr {α : Type} {fingerprint : List α → Except Raised String}
    (h : SameSettings s s') (cid : String) (tokenChunks : List (List α)) (numLayers : Int)
    (workerIds : List Int) (ttl : Option Ttl) (pin : Bool) (name : Option String) (now : Time) :
    buildDescriptor fingerprint s' cid tokenChunks numLayers workerIds ttl pin name now =
      buildDescriptor fingerprint s cid tokenChunks numLayers workerIds ttl pin name now := by
  simp only [buildDescriptor, h.1, h.2]

theorem Agree.publish (h : Agree b s s') (d : CacheDescriptor) :
    Agree b (s.publish b d) (s'.publish b d) where
  settings := h.settings
  lookup := by simp [ExplicitKVCache.publish]
  chunks := h.chunks

theorem Agree.publishBuilt (h : Agree b s s') (built : Except Raised CacheDescriptor) :
    (s'.publishBuilt b built).1 = (s.publishBuilt b built).1 ∧
      Agree b (s.publishBuilt b built).2 (s'.publishBuilt b built).2 := by
  cases built with
  | error err => exact ⟨rfl, h⟩
  | ok d => exact ⟨rfl, h.publish d⟩

theorem Agree.withStore (h : Agree b s s') {store store' : σ}
    (hchunks : SameChunks b store store') :
    Agree b { s with store := store } { s' with store := store' } :=
  ⟨h.settings, h.lookup, hchunks⟩

theorem Agree.delete (h : Agree b s s') : Agree b (s.delete b) (s'.delete b) where
  settings := by
    have hs := sameSettings_delete s b
    have hs' := sameSettings_delete s' b
    exact ⟨hs'.1.trans (h.settings.1.trans hs.1.symm), hs'.2.trans (h.settings.2.trans hs.2.symm)⟩
  lookup := by rw [lookup_delete, lookup_delete, if_pos rfl, if_pos rfl]
  chunks := by
    intro key hkey
    rw [view_delete, view_delete, h.lookup, h.chunks key hkey]

theorem agree_register (h : Agree b s s') {r : Registration} {newId : String}
    (hid : resolveId r.cacheId newId = b) (now : Time) :
    (s'.register blake2b r newId now).1 = (s.register blake2b r newId now).1 ∧
      Agree b (s.register blake2b r newId now).2 (s'.register blake2b r newId now).2 := by
  subst hid
  have hslices : chunkTokenIds r.tokenIds s'.chunkSize =
      .ok (tokenSlices r.tokenIds s.chunkSize) := by
    rw [h.settings.1, chunkTokenIds_of_pos _ s.chunkSize_pos]
  unfold register
  simp only [hslices, chunkTokenIds_of_pos _ s.chunkSize_pos, putChunks_ok]
  cases checkCounts (tokenSlices r.tokenIds s.chunkSize).length
      (normalizePayloads r.payloads).entries with
  | error err => exact ⟨rfl, h⟩
  | ok _ =>
      have hstored := h.withStore (sameChunks_putChunks h.chunks r.pin (putsOf r newId))
      simp only
      rw [buildDescriptor_congr]
      · exact hstored.publishBuilt _
      · exact hstored.settings

theorem agree_commit (h : Agree b s s') {c : Commit} (hid : c.cacheId = b) (now : Time) :
    (s'.commit blake2b c now).1 = (s.commit blake2b c now).1 ∧
      Agree b (s.commit blake2b c now).2 (s'.commit blake2b c now).2 := by
  subst hid
  have hslices : chunkTokenIds c.tokenIds s'.chunkSize =
      .ok (tokenSlices c.tokenIds s.chunkSize) := by
    rw [h.settings.1, chunkTokenIds_of_pos _ s.chunkSize_pos]
  unfold ExplicitKVCache.commit
  simp only [hslices, chunkTokenIds_of_pos _ s.chunkSize_pos]
  rw [buildDescriptor_congr h.settings]
  exact h.publishBuilt _

/-- On a live cache the two engines answer alike. -/
theorem agree_live (h : Agree b s s') {op : EngineOp} {clock : Time}
    (htests : tests op = some (b, clock)) {d : CacheDescriptor}
    (hres : s.liveDescriptor b clock = (.ok d, s))
    (hres' : s'.liveDescriptor b clock = (.ok d, s')) :
    (step blake2b s' op).1 = (step blake2b s op).1 ∧
      Agree b (step blake2b s op).2 (step blake2b s' op).2 := by
  cases tests_cases htests with
  | get =>
      simp only [step, ExplicitKVCache.get, hres, hres']
      exact ⟨trivial, h⟩
  | «exists» =>
      simp only [step, exists', hres, hres']
      exact ⟨trivial, h⟩
  | lookup tokens =>
      simp only [step, ExplicitKVCache.lookup, hres, hres']
      cases matchedChunks blake2b d tokens with
      | error err => exact ⟨rfl, h⟩
      | ok m => exact ⟨rfl, h.publish _⟩
  | load =>
      simp only [step, ExplicitKVCache.load, hres, hres']
      refine ⟨by rw [loadLoop_congr h.chunks], h.withStore fun key hkey => ?_⟩
      rw [view_loadLoop, view_loadLoop, h.chunks key hkey]
  | extendTtl ttl stamp =>
      simp only [step, ExplicitKVCache.extendTtl, hres, hres']
      cases ttl.addedTo stamp with
      | error err => exact ⟨rfl, h⟩
      | ok expiresAt => exact ⟨rfl, h.publish _⟩
  | pin =>
      simp only [step, ExplicitKVCache.pin, hres, hres']
      refine ⟨trivial, (h.publish _).withStore fun key hkey => ?_⟩
      rw [view_foldl_pin, view_foldl_pin, h.chunks key hkey]
  | unpin =>
      simp only [step, ExplicitKVCache.unpin, hres, hres']
      refine ⟨trivial, (h.publish _).withStore fun key hkey => ?_⟩
      rw [view_foldl_unpin, view_foldl_unpin, h.chunks key hkey]

theorem agree_tests (h : Agree b s s') {op : EngineOp} {clock : Time}
    (htests : tests op = some (b, clock)) :
    (step blake2b s' op).1 = (step blake2b s op).1 ∧
      Agree b (step blake2b s op).2 (step blake2b s' op).2 := by
  cases hd : s.descriptors.lookup b with
  | none =>
      have hd' := h.lookup.trans hd
      rw [step_of_absent htests hd, step_of_absent htests hd']
      exact ⟨rfl, h⟩
  | some d =>
      have hd' := h.lookup.trans hd
      cases hexpired : d.isExpired none clock with
      | true =>
          rw [step_of_expired htests hd hexpired, step_of_expired htests hd' hexpired]
          exact ⟨rfl, h.delete⟩
      | false =>
          have hres : s.liveDescriptor b clock = (.ok d, s) := by
            simp [liveDescriptor, hd, hexpired]
          have hres' : s'.liveDescriptor b clock = (.ok d, s') := by
            simp [liveDescriptor, hd', hexpired]
          exact agree_live h htests hres hres'

theorem agree_step_self (h : Agree b s s') {op : EngineOp} (hop : callId op = some b) :
    (step blake2b s' op).1 = (step blake2b s op).1 ∧
      Agree b (step blake2b s op).2 (step blake2b s' op).2 := by
  cases kind op with
  | tests cid clock htests =>
      obtain rfl := Option.some.inj ((callId_of_tests htests).symm.trans hop)
      exact agree_tests h htests
  | sweeps now again hsweeps =>
      rw [callId_of_sweeps hsweeps] at hop
      cases hop
  | registers r newId now =>
      obtain ⟨hsame, hagree⟩ := agree_register h (Option.some.inj hop) now
      exact ⟨congrArg (Except.map EngineReply.descriptor) hsame, hagree⟩
  | commits c now =>
      obtain ⟨hsame, hagree⟩ := agree_commit h (Option.some.inj hop) now
      exact ⟨congrArg (Except.map EngineReply.descriptor) hsame, hagree⟩
  | puts cid idx payload w pin =>
      refine ⟨?_, h.withStore (sameChunks_put h.chunks _ _ _)⟩
      simp only [step, ExplicitKVCache.putChunk, LosslessStore.put_ok]
  | deletes cid =>
      obtain rfl := Option.some.inj hop
      exact ⟨rfl, h.delete⟩

/-- In every run of calls that each name an id, the calls on one id end as they
do in the run without the others. -/
theorem isolated_run (s : ExplicitKVCache σ) (ops : List EngineOp)
    (hops : ∀ op ∈ ops, (callId op).isSome) (b : String) :
    ((machine blake2b σ).trace s ops).filter (fun entry => callId entry.1 = some b) =
      (machine blake2b σ).trace s (ops.filter fun op => callId op = some b) := by
  apply (machine blake2b σ).trace_filter (fun op => callId op = some b)
    (fun op => (callId op).isSome) (R := Agree b)
  · intro s s' op h hop
    obtain ⟨hsame, hagree⟩ := agree_step_self h hop
    exact ⟨hsame.symm, hagree⟩
  · intro s s' op h hne hsome
    obtain ⟨k, hk⟩ := Option.isSome_iff_exists.mp hsome
    apply agree_step_other h hk
    rintro rfl
    exact hne hk
  · exact .refl b s
  · exact fun op hop => .inr (hops op hop)

/-- Two ids, one of which expires and is found expired while the other is used. -/
theorem isolated_run_expired :
    let r : Registration := ⟨[1], .sequence [.ofBytes [7]], some "a", some 5, true, none⟩
    let r' : Registration := { r with payloads := .sequence [.ofBytes [8]], cacheId := some "b" }
    let ops : List EngineOp :=
      [.register r "new" 0, .register r' "new" 3, .unpin "a" 4, .get "a" 6, .load "b" none 0 7]
    let start : ExplicitKVCache UnboundedCPU := ⟨.empty, 2, by decide, none, ∅⟩
    ((machine sampleDigest UnboundedCPU).trace start ops).filter
        (fun entry => callId entry.1 = some "b") =
      (machine sampleDigest UnboundedCPU).trace start
        (ops.filter fun op => callId op = some "b") := by
  intro r r' ops start
  exact isolated_run start ops (by decide) "b"

end LlmCache.Engine.Isolation
