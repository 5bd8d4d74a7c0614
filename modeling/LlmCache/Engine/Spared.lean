import LlmCache.Engine.Chunks

/-!
# Calls that spare the chunks of a cache

A call spares a cache when it stores no chunk under its id and does not delete
it, be it because the cache has expired.  What the store keeps under writes to
other caches is kept by every such call.
-/

namespace LlmCache.Engine.Spared

open Errors Lib Payload LlmCache.Types Store ExplicitKVCache Descriptors Chunks

variable {σ : Type} [StorageBackend σ]

/-- Kept by what the engine does to its store, writes to the cache apart. -/
structure KeptBeside (cid : String) (P : σ → Prop) : Prop where
  put : ∀ store key obj pin, key.cacheId ≠ cid → P store → P (KeyedStore.put store key obj pin).2
  get : ∀ store key, P store → P (KeyedStore.get store key).2
  remove : ∀ store key, key.cacheId ≠ cid → P store → P (KeyedStore.remove store key).2
  pin : ∀ store key, P store → P (KeyedStore.pin store key)
  unpin : ∀ store key, P store → P (KeyedStore.unpin store key)

/-- The engine holds an expired descriptor of the cache, or none that is. -/
def expiredAt (s : ExplicitKVCache σ) (cid : String) (test : CacheDescriptor → Bool) : Bool :=
  (s.descriptors.lookup cid).any test

/-- The call stores nothing under the id and does not delete the cache. -/
def Spares (cid : String) (s : ExplicitKVCache σ) : EngineOp → Prop
  | .register r newId _ => resolveId r.cacheId newId ≠ cid
  | .putChunk c .. | .delete c => c ≠ cid
  | .commit .. => True
  | .get c clock | .exists c clock | .lookup c _ clock _ | .load c _ _ clock
  | .extendTtl c _ clock _ | .pin c clock | .unpin c clock =>
      c = cid → expiredAt s cid (·.isExpired none clock) = false
  | .list now again | .sweepExpired now again =>
      expiredAt s cid (·.isExpired (some now) again) = false

instance (cid : String) (s : ExplicitKVCache σ) (op : EngineOp) : Decidable (Spares cid s op) :=
  match op with
  | .register .. | .putChunk .. | .delete _ => inferInstanceAs (Decidable (_ ≠ _))
  | .commit .. => inferInstanceAs (Decidable True)
  | .get .. | .exists .. | .lookup .. | .load .. | .extendTtl .. | .pin .. | .unpin .. =>
      inferInstanceAs (Decidable (_ → _))
  | .list .. | .sweepExpired .. => inferInstanceAs (Decidable (_ = _))

omit [StorageBackend σ] in
theorem spares_congr {τ : Type} {cid : String} {s : ExplicitKVCache σ} {s' : ExplicitKVCache τ}
    (h : s.descriptors = s'.descriptors) (op : EngineOp) : Spares cid s op ↔ Spares cid s' op := by
  have hexpired : expiredAt s cid = expiredAt s' cid := by
    funext test
    rw [expiredAt, expiredAt, h]
  cases op <;> simp only [Spares, hexpired]

section Loops

variable {cid : String} {P : σ → Prop} {store : σ}

theorem KeptBeside.putChunks (hP : KeptBeside cid P) (pin : Bool)
    {chunks : List (ChunkKey × KVPayload)} (hchunks : ∀ chunk ∈ chunks, chunk.1.cacheId ≠ cid)
    (h : P store) : P (putChunks pin chunks store).2 := by
  induction chunks generalizing store with
  | nil => exact h
  | cons chunk chunks ih =>
      have hput := hP.put store chunk.1 chunk.2 pin (hchunks chunk (List.mem_cons_self ..)) h
      simp only [ExplicitKVCache.putChunks]
      cases (KeyedStore.put store chunk.1 chunk.2 pin).1 with
      | error err => exact hput
      | ok _ => exact ih (fun c hc => hchunks c (List.mem_cons_of_mem _ hc)) hput

theorem KeptBeside.loadLoop (hP : KeptBeside cid P) (id : String) (worker : Int) (idxs : List Nat)
    (h : P store) : P (loadLoop id worker idxs store).2 := by
  induction idxs generalizing store with
  | nil => exact h
  | cons idx idxs ih =>
      have hget := hP.get store ⟨id, idx, worker⟩ h
      simp only [ExplicitKVCache.loadLoop]
      cases (KeyedStore.get store ⟨id, idx, worker⟩).1 with
      | error err => exact hget
      | ok held =>
          cases held with
          | none => exact hget
          | some payload => exact ih hget

omit [StorageBackend σ] in
theorem foldl_keeps {f : σ → ChunkKey → σ} {keys : List ChunkKey}
    (hf : ∀ store, ∀ key ∈ keys, P store → P (f store key)) (h : P store) :
    P (keys.foldl f store) := by
  induction keys generalizing store with
  | nil => exact h
  | cons key keys ih =>
      exact ih (fun store k hk => hf store k (List.mem_cons_of_mem _ hk))
        (hf store key (List.mem_cons_self ..) h)

variable {s : ExplicitKVCache σ}

theorem KeptBeside.delete (hP : KeptBeside cid P) (h : P s.store) {id : String} (hid : id ≠ cid) :
    P (s.delete id).store := by
  unfold ExplicitKVCache.delete
  cases s.descriptors.lookup id with
  | none => exact h
  | some d =>
      refine foldl_keeps (fun store key hkey => hP.remove store key ?_) h
      rw [cacheId_of_mem_chunkKeys hkey]
      exact hid

theorem KeptBeside.foldl_delete (hP : KeptBeside cid P) {ds : List CacheDescriptor}
    (hds : ∀ d ∈ ds, d.cacheId ≠ cid) (h : P s.store) :
    P (ds.foldl (fun s d => s.delete d.cacheId) s).store := by
  induction ds generalizing s with
  | nil => exact h
  | cons d ds ih =>
      exact ih (fun d' hd' => hds d' (List.mem_cons_of_mem _ hd'))
        (hP.delete h (hds d (List.mem_cons_self ..)))

end Loops

/-! ## Calls -/

section Calls

variable {cid : String} {s : ExplicitKVCache σ} {op : EngineOp}

omit [StorageBackend σ] in
theorem not_expired_of_spares (hspares : Spares cid s op) {clock : Time}
    (htests : tests op = some (cid, clock)) :
    expiredAt s cid (·.isExpired none clock) = false := by
  cases op <;> simp only [tests, Option.some.injEq, Prod.mk.injEq, reduceCtorEq] at htests
  all_goals
    obtain ⟨rfl, rfl⟩ := htests
    exact hspares rfl

omit [StorageBackend σ] in
theorem ne_of_deletes (hspares : Spares cid s op) {id : String} {d : CacheDescriptor}
    (hd : s.descriptors.lookup id = some d)
    (hwhy : op = .delete id ∨ ∃ clock, tests op = some (id, clock) ∧ d.isExpired none clock) :
    id ≠ cid := by
  rcases hwhy with rfl | ⟨clock, htests, hexpired⟩
  · exact hspares
  · rintro rfl
    have hlive := not_expired_of_spares hspares htests
    rw [expiredAt, hd] at hlive
    simp only [Option.any_some, hexpired, Bool.true_eq_false] at hlive

omit [StorageBackend σ] in
theorem ne_of_sweeps (hspares : Spares cid s op) {now again : Time}
    (hsweeps : sweeps op = some (now, again))
    (hkeyed : ∀ k d, s.descriptors.lookup k = some d → d.cacheId = k) :
    ∀ d ∈ expired s now again, d.cacheId ≠ cid := by
  have hlive : expiredAt s cid (·.isExpired (some now) again) = false := by
    cases op <;> simp only [sweeps, Option.some.injEq, Prod.mk.injEq, reduceCtorEq] at hsweeps
    all_goals
      obtain ⟨rfl, rfl⟩ := hsweeps
      exact hspares
  intro d hd heq
  obtain ⟨hvalue, hexpired⟩ := List.mem_filter.mp hd
  obtain ⟨k, hk⟩ := (OrderedDict.mem_values_iff _ d).mp hvalue
  obtain rfl := (hkeyed k d hk).symm.trans heq
  rw [expiredAt, hk] at hlive
  simp only [Option.any_some, hexpired, Bool.true_eq_false] at hlive

theorem KeptBeside.step {P : σ → Prop} (hP : KeptBeside cid P) {blake2b : List UInt8 → String}
    (hkeyed : ∀ k d, s.descriptors.lookup k = some d → d.cacheId = k) (hspares : Spares cid s op)
    (h : P s.store) : P (step blake2b s op).2.store := by
  have hchange : Change blake2b s op (ExplicitKVCache.step blake2b s op).1
      (ExplicitKVCache.step blake2b s op).2 := change_step s op
  generalize ExplicitKVCache.step blake2b s op = result at hchange ⊢
  obtain ⟨out, s'⟩ := result
  cases hchange with
  | unchanged => exact h
  | registered hend =>
      have hputs := fun pin => hP.putChunks pin
        (fun chunk hchunk => (cacheId_of_mem_putsOf hchunk).symm ▸ hspares) h
      cases hend with
      | refused => exact h
      | full => exact hputs _
      | overflow => exact hputs _
      | published => exact hputs _
  | chunkPut => exact hP.put _ _ _ _ hspares h
  | committed => exact h
  | deleted hd _ hwhy => exact hP.delete h (ne_of_deletes hspares hd hwhy)
  | swept hsweeps => exact hP.foldl_delete (ne_of_sweeps hspares hsweeps hkeyed) h
  | touched => exact h
  | pinned => exact foldl_keeps (fun store key _ => hP.pin store key) h
  | unpinned => exact foldl_keeps (fun store key _ => hP.unpin store key) h
  | loaded => exact hP.loadLoop _ _ _ h

end Calls

end LlmCache.Engine.Spared
