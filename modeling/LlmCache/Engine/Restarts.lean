import LlmCache.Engine.Batches
import LlmCache.Engine.Simulation
import LlmCache.Engine.Spared
import LlmCache.Store.TieredRestarts

/-!
# Caches that outlive the process

An engine over two tiers ends with its process, with all its descriptors.  The
next one finds the pinned chunks in the cold tier, and once the cache is
committed again they are loaded as they were registered.
-/

namespace LlmCache.Engine.Restarts

open Errors Lib Payload LlmCache.Types Store ExplicitKVCache Descriptors Chunks Spared Simulation
open TieredRestarts (Among)
open TieredSimulation (IsStorageFull SameHot)
open Store.ColdTiers (Chunks)
open Batches (keysOf)

variable {σ : Type} {blake2b : List UInt8 → String}

/-- A call of the engine, or the start of the next process. -/
inductive Life where
  | call (op : EngineOp)
  | restart (capacityBytes : Option Nat)

/-- The engine of the next process. -/
def restarted (reopen : σ → σ) (capacityBytes : Option Nat)
    (e : ExplicitKVCache (TieredBackend σ)) : ExplicitKVCache (TieredBackend σ) :=
  { e with
    store := ⟨{ capacityBytes := capacityBytes }, reopen e.store.cold⟩
    descriptors := ∅ }

def lives [StorageBackend σ] (blake2b : List UInt8 → String) (reopen : σ → σ) :
    Machine (ExplicitKVCache (TieredBackend σ)) Life Raised EngineReply where
  step e
    | .call op => step blake2b e op
    | .restart capacityBytes => (.ok .done, restarted reopen capacityBytes e)

/-- The calls of the process spare the cache. -/
def SparesLife (cid : String) (e : ExplicitKVCache (TieredBackend σ)) : Life → Prop
  | .call op => Spares cid e op
  | .restart _ => True

instance (cid : String) (e : ExplicitKVCache (TieredBackend σ)) (life : Life) :
    Decidable (SparesLife cid e life) :=
  match life with
  | .call op => inferInstanceAs (Decidable (Spares cid e op))
  | .restart _ => inferInstanceAs (Decidable True)

/-- `payloads[:num_chunks]`, or all of them. -/
def taken (payloads : List KVPayload) : Option Int → List KVPayload
  | none => payloads
  | some n => payloads.take n.toNat

/-! ## Over a lossless cold tier -/

section Lossless

variable [LosslessBackend σ] {chunks : List (ChunkKey × KVPayload)} {t : TieredBackend σ}
  {cid : String}

/-- Every chunk is in cold, and nothing else is in hot under its key. -/
def Kept (chunks : List (ChunkKey × KVPayload)) (t : TieredBackend σ) : Prop :=
  ∀ chunk ∈ chunks, Among [some chunk.2] (t.hot.resident chunk.1) (t.coldCopy chunk.1)

theorem keptBeside_kept (hchunks : ∀ chunk ∈ chunks, chunk.1.cacheId = cid) :
    KeptBeside cid (Kept (σ := σ) chunks) where
  put t key obj pin hkey h := fun chunk hchunk =>
    TieredRestarts.among_put t key obj pin chunk.1 (h chunk hchunk) fun heq =>
      absurd (heq ▸ hchunks chunk hchunk) hkey
  get t k h := fun chunk hchunk => TieredRestarts.among_get t k chunk.1 (h chunk hchunk)
  remove t _ hkey h := fun chunk hchunk =>
    TieredRestarts.among_remove t (fun heq => hkey (heq ▸ hchunks chunk hchunk)) (h chunk hchunk)
  pin t key h := fun chunk hchunk => TieredRestarts.among_pin t key chunk.1 (h chunk hchunk)
  unpin t key h := fun chunk hchunk => TieredRestarts.among_unpin t key chunk.1 (h chunk hchunk)

theorem kept_restarted {reopen : σ → σ}
    (hreopen : ∀ s, LosslessStore.view (reopen s) = LosslessStore.view s)
    {f : ExplicitKVCache (TieredBackend σ)} (h : Kept chunks f.store) (capacity : Option Nat) :
    Kept chunks (restarted reopen capacity f).store := by
  intro chunk hchunk
  have hcold : (restarted reopen capacity f).store.coldCopy = f.store.coldCopy :=
    hreopen f.store.cold
  rw [hcold]
  exact (h chunk hchunk).no_hot

theorem among_putChunks {may : List (Option KVPayload)} {key : ChunkKey} (pin : Bool)
    (hother : ∀ chunk ∈ chunks, chunk.1 ≠ key)
    (h : Among may (t.hot.resident key) (t.coldCopy key)) :
    Among may ((putChunks pin chunks t).2.hot.resident key)
      ((putChunks pin chunks t).2.coldCopy key) := by
  induction chunks generalizing t with
  | nil => exact h
  | cons chunk rest ih =>
      have hput := TieredRestarts.among_put t chunk.1 chunk.2 pin key h fun heq =>
        absurd heq.symm (hother chunk (List.mem_cons_self ..))
      simp only [putChunks]
      cases (KeyedStore.put t chunk.1 chunk.2 pin).1 with
      | error err => exact hput
      | ok _ => exact ih (fun c hc => hother c (List.mem_cons_of_mem _ hc)) hput

theorem kept_putChunks (hnodup : (keysOf chunks).Nodup)
    (hok : (putChunks true chunks t).1 = .ok ()) : Kept chunks (putChunks true chunks t).2 := by
  induction chunks generalizing t with
  | nil => exact fun chunk hchunk => by cases hchunk
  | cons chunk rest ih =>
      obtain ⟨hnew, hrest⟩ := List.nodup_cons.mp hnodup
      simp only [putChunks] at hok ⊢
      cases hput : (KeyedStore.put t chunk.1 chunk.2 true).1 with
      | error err =>
          rw [hput] at hok
          cases hok
      | ok _ =>
          rw [hput] at hok
          intro c hc
          rcases List.mem_cons.mp hc with rfl | hc
          · apply among_putChunks true _ (TieredRestarts.among_pinned_put hput)
            rintro c' hc' heq
            exact hnew (heq ▸ List.mem_map_of_mem hc')
          · exact ih hrest hok c hc

/-- The loop of `load` reads the chunks, unless there is no room to promote one. -/
theorem loadLoop_kept {worker : Int} {chunk : Nat → KVPayload} {idxs : List Nat}
    (h : ∀ idx ∈ idxs, Among [some (chunk idx)] (t.hot.resident ⟨cid, idx, worker⟩)
      (t.coldCopy ⟨cid, idx, worker⟩)) :
    (loadLoop cid worker idxs t).1 = .ok (idxs.map chunk) ∨
      ∃ err, (loadLoop cid worker idxs t).1 = .error err ∧ IsStorageFull err := by
  induction idxs generalizing t with
  | nil => exact .inl rfl
  | cons idx rest ih =>
      have hfound : ∀ found, (t.get ⟨cid, idx, worker⟩).1 = .ok found →
          found = some (chunk idx) := by
        intro found hget
        rw [(TieredRefinement.get_of_ok hget).1]
        exact List.mem_singleton.mp (h idx (List.mem_cons_self ..)).current_mem
      have hnext := ih (t := (t.get ⟨cid, idx, worker⟩).2) fun i hi =>
        TieredRestarts.among_get t _ _ (h i (List.mem_cons_of_mem _ hi))
      simp only [loadLoop]
      have hread : KeyedStore.get t (⟨cid, idx, worker⟩ : ChunkKey) = t.get ⟨cid, idx, worker⟩ :=
        rfl
      rw [hread]
      cases hget : (t.get ⟨cid, idx, worker⟩).1 with
      | error err => exact .inr ⟨err, rfl, TieredSimulation.isStorageFull_of_get hget⟩
      | ok found =>
          obtain rfl := hfound found hget
          rcases hnext with hloaded | ⟨err, herr, hfull⟩
          · left
            simp only [hloaded]
            rfl
          · right
            simp only [herr]
            exact ⟨err, rfl, hfull⟩

variable {f : ExplicitKVCache (TieredBackend σ)} {r : Registration} {newId : String}

theorem loadLoop_payloads (hkept : Kept (putsOf r newId) t) {worker : Int}
    {payloads : List KVPayload}
    (hworker : (normalizePayloads r.payloads).lookup worker = some payloads) {count : Nat}
    (hcount : count ≤ payloads.length) :
    (loadLoop (resolveId r.cacheId newId) worker (List.range count) t).1 =
        .ok (payloads.take count) ∨
      ∃ err, (loadLoop (resolveId r.cacheId newId) worker (List.range count) t).1 = .error err ∧
        IsStorageFull err := by
  have hget : ∀ i (h : i < payloads.length), payloads.getD i (.ofBytes []) = payloads[i] := by
    intro i h
    rw [List.getD_eq_getElem?_getD, List.getElem?_eq_getElem h, Option.getD_some]
  have htake : (List.range count).map (fun i => payloads.getD i (.ofBytes [])) =
      payloads.take count := by
    apply List.ext_getElem
    · simp [hcount]
    · intro i hi hi'
      have hlt : i < payloads.length := by
        rw [List.length_take] at hi'
        omega
      rw [List.getElem_map, List.getElem_range, List.getElem_take, hget i hlt]
  rw [← htake]
  apply loadLoop_kept
  intro idx hidx
  have hlt : idx < payloads.length := by
    have hrange := List.mem_range.mp hidx
    omega
  have hmem : ((⟨resolveId r.cacheId newId, idx, worker⟩, payloads[idx]) :
      ChunkKey × KVPayload) ∈ putsOf r newId := by
    rw [mem_putsOf_iff]
    refine ⟨worker, idx, rfl, ?_⟩
    rw [chunkOf, hworker, Option.bind_some, List.getElem?_eq_getElem hlt]
  rw [hget idx hlt]
  exact hkept _ hmem

theorem load_kept (hkept : Kept (putsOf r newId) f.store) {d : CacheDescriptor} {clock : Time}
    (hd : f.descriptors.lookup (resolveId r.cacheId newId) = some d)
    (hlive : d.isExpired none clock = false) {worker : Int} {payloads : List KVPayload}
    (hworker : (normalizePayloads r.payloads).lookup worker = some payloads)
    (hcount : d.numChunks = payloads.length) (n : Option Int) :
    (f.load (resolveId r.cacheId newId) n worker clock).1 = .ok (taken payloads n) ∨
      ∃ err, (f.load (resolveId r.cacheId newId) n worker clock).1 = .error err ∧
        IsStorageFull err := by
  have hfound : f.liveDescriptor (resolveId r.cacheId newId) clock = (.ok d, f) := by
    rw [liveDescriptor, hd]
    simp [hlive]
  unfold load
  simp only [hfound, hcount]
  cases n with
  | none =>
      have hall := loadLoop_payloads hkept hworker (le_refl payloads.length)
      rwa [List.take_length] at hall
  | some n =>
      have hfirst := loadLoop_payloads hkept hworker
        (show (min n (payloads.length : Int)).toNat ≤ payloads.length by omega)
      have htake : payloads.take (min n (payloads.length : Int)).toNat = payloads.take n.toNat := by
        rw [List.take_eq_take_iff]
        omega
      rwa [htake] at hfirst

theorem kept_register (hpin : r.pin = true) {now : Time} {d : CacheDescriptor}
    (hok : (f.register blake2b r newId now).1 = .ok d) :
    Kept (putsOf r newId) (f.register blake2b r newId now).2.store ∧ countsAgree f r ∧
      fingerprints blake2b (tokenSlices r.tokenIds f.chunkSize) = .ok d.chunkFingerprints := by
  have hend : RegisterEnd blake2b f r newId now (f.register blake2b r newId now) :=
    register_end f r newId now
  generalize f.register blake2b r newId now = out at hok hend ⊢
  cases hend with
  | refused => cases hok
  | full => cases hok
  | overflow => cases hok
  | published hcounts hputs hd hsize =>
      obtain rfl := Except.ok.inj hok
      rw [hpin] at hputs
      have hkept := kept_putChunks (Batches.nodup_putsOf r newId) hputs
      refine ⟨?_, hcounts, ?_⟩
      · simp only [publish, stored, hpin]
        exact hkept
      · rw [← hsize]
        exact hd.digests

omit [LosslessBackend σ] in
theorem commit_of_digests {c : Commit} {digests : List String}
    (hdigests : fingerprints blake2b (tokenSlices c.tokenIds f.chunkSize) = .ok digests)
    (httl : ∀ ttl ∈ c.ttl.or f.defaultTtl, ttl.Addable) (now : Time) :
    ∃ d, f.commit blake2b c now = (.ok d, f.publish c.cacheId d) ∧
      d.chunkFingerprints = digests := by
  unfold commit
  rw [chunkTokenIds_of_pos _ f.chunkSize_pos]
  obtain ⟨expiresAt, hexpiry⟩ := (Ttl.expiry_ok_iff now _).mpr httl
  simp only [build_of_ok hexpiry hdigests, publishBuilt]
  exact ⟨_, rfl, rfl⟩

omit [LosslessBackend σ] in
theorem length_of_countsAgree (hcounts : countsAgree f r) {worker : Int}
    {payloads : List KVPayload}
    (hworker : (normalizePayloads r.payloads).lookup worker = some payloads) :
    payloads.length = (tokenSlices r.tokenIds f.chunkSize).length :=
  length_of_checkCounts hcounts ⟨worker, payloads⟩ (AList.mem_lookup_iff.mp hworker)

end Lossless

/-! ## Any cold tier that stands for a plain map -/

section Cold

variable [StorageBackend σ] {ids : String → Prop} {obj : KVPayload → Prop} {R : σ → Chunks → Prop}
  {reopen : σ → σ} {e : ExplicitKVCache (TieredBackend σ)}
  {f : ExplicitKVCache (TieredBackend Chunks)}

def AdmitsLife (ids : String → Prop) (obj : KVPayload → Prop) : Life → Prop
  | .call op => Admits ids obj op
  | .restart _ => True

/-- The engine over the cold tier and over a plain map in its place. -/
abbrev Mirrors (ids : String → Prop) (obj : KVPayload → Prop) (R : σ → Chunks → Prop)
    (e : ExplicitKVCache (TieredBackend σ)) (f : ExplicitKVCache (TieredBackend Chunks)) : Prop :=
  SameEngine ids (SameHot (fun key => ids key.cacheId) obj R) e f

theorem lives_alike (h : StandsForIds σ Chunks (fun _ => False) ids obj R)
    (hreopen : ∀ s m, R s m → R (reopen s) m) (hsame : Mirrors ids obj R e f) {life : Life}
    (hlife : AdmitsLife ids obj life) :
    EndAlike (fun _ => False) (Mirrors ids obj R) ((lives blake2b reopen).step e life)
      ((lives blake2b id).step f life) := by
  cases life with
  | call op => exact step_alike (TieredSimulation.standsFor_cold h) hsame hlife
  | restart capacity =>
      refine .of_eq rfl ⟨hsame.chunkSize, hsame.defaultTtl, rfl, ?_, fun _ _ hd => by cases hd⟩
      exact ⟨rfl, hreopen _ _ hsame.store.cold, fun _ _ hres => by cases hres⟩

/-- The mirror image has the chunks in its cold tier. -/
def Guarded (ids : String → Prop) (obj : KVPayload → Prop) (R : σ → Chunks → Prop) (size : Nat)
    (chunks : List (ChunkKey × KVPayload)) (e : ExplicitKVCache (TieredBackend σ)) : Prop :=
  ∃ f, Mirrors ids obj R e f ∧ Kept chunks f.store ∧ f.chunkSize = size

theorem guarded_step (h : StandsForIds σ Chunks (fun _ => False) ids obj R)
    (hreopen : ∀ s m, R s m → R (reopen s) m) {size : Nat} {cid : String}
    {chunks : List (ChunkKey × KVPayload)} (hchunks : ∀ chunk ∈ chunks, chunk.1.cacheId = cid)
    (hguarded : Guarded ids obj R size chunks e) {life : Life} (hlife : AdmitsLife ids obj life)
    (hspares : SparesLife cid e life) :
    Guarded ids obj R size chunks ((lives blake2b reopen).step e life).2 := by
  obtain ⟨f, hsame, hkept, hsize⟩ := hguarded
  have hnext : Mirrors ids obj R ((lives blake2b reopen).step e life).2
      ((lives blake2b id).step f life).2 := (lives_alike h hreopen hsame hlife).same.2
  refine ⟨_, hnext, ?_, ?_⟩
  · cases life with
    | call op =>
        apply (keptBeside_kept hchunks).step _ _ hkept
        · intro k d hd
          exact (hsame.keyed k d (hsame.descriptors ▸ hd)).1
        · exact (spares_congr hsame.descriptors op).mp hspares
    | restart capacity => exact kept_restarted (fun _ => rfl) hkept capacity
  · cases life with
    | call op => exact (sameSettings_of_change (change_step f op)).1.trans hsize
    | restart capacity => exact hsize

/-- A pinned registration that returns puts its chunks where later calls keep them. -/
theorem guarded_register (h : StandsForIds σ Chunks (fun _ => False) ids obj R)
    (hsame : Mirrors ids obj R e f) {r : Registration} {newId : String} {now : Time}
    (hr : Admits ids obj (.register r newId now)) (hpin : r.pin = true) {d : CacheDescriptor}
    (hok : (e.register blake2b r newId now).1 = .ok d) :
    Guarded ids obj R f.chunkSize (putsOf r newId) (e.register blake2b r newId now).2 ∧
      countsAgree f r ∧
      fingerprints blake2b (tokenSlices r.tokenIds f.chunkSize) = .ok d.chunkFingerprints := by
  obtain ⟨hreturns, hnext⟩ := (register_alike
    (TieredSimulation.standsFor_cold h) hsame hr.1 hr.2 now).same
  obtain ⟨hkept, hcounts, hdigests⟩ := kept_register hpin (hreturns.symm.trans hok)
  refine ⟨⟨_, hnext, hkept, ?_⟩, hcounts, hdigests⟩
  exact (sameSettings_of_change (change_step f (.register r newId now))).1

theorem defaultTtl_exec (e : ExplicitKVCache (TieredBackend σ)) (history : List Life) :
    ((lives blake2b reopen).exec e history).defaultTtl = e.defaultTtl := by
  induction history generalizing e with
  | nil => rfl
  | cons life history ih =>
      apply (ih _).trans
      cases life with
      | call op => exact (sameSettings_of_change (change_step e op)).2
      | restart capacity => rfl

/-- Once a cache was registered pinned, the later processes may do anything but
write over it or delete it: after one more commit of its tokens each worker's
chunks are loaded as they were registered, or there is no room to promote them. -/
theorem load_after_restarts (h : StandsForIds σ Chunks (fun _ => False) ids obj R)
    (hreopen : ∀ s m, R s m → R (reopen s) m) (hsame : Mirrors ids obj R e f)
    {before later : List Life} (hbefore : ∀ life ∈ before, AdmitsLife ids obj life)
    (hlater : ∀ life ∈ later, AdmitsLife ids obj life) {r : Registration} {newId : String}
    {now : Time} (hr : Admits ids obj (.register r newId now)) (hpin : r.pin = true)
    {d : CacheDescriptor}
    (hok : (((lives blake2b reopen).exec e before).register blake2b r newId now).1 = .ok d)
    (hspares : (lives blake2b reopen).StepsMeet (SparesLife (resolveId r.cacheId newId))
      (((lives blake2b reopen).exec e before).register blake2b r newId now).2 later)
    {c : Commit} (hcid : c.cacheId = resolveId r.cacheId newId) (htokens : c.tokenIds = r.tokenIds)
    (httl : ∀ ttl ∈ c.ttl.or e.defaultTtl, ttl.Addable) (again : Time) :
    let last := (lives blake2b reopen).exec
      (((lives blake2b reopen).exec e before).register blake2b r newId now).2 later
    ∃ d', (last.commit blake2b c again).1 = .ok d' ∧
      d'.chunkFingerprints = d.chunkFingerprints ∧
      ∀ worker payloads, (normalizePayloads r.payloads).lookup worker = some payloads →
        ∀ (n : Option Int) (clock : Time), d'.isExpired none clock = false →
          ((last.commit blake2b c again).2.load c.cacheId n worker clock).1 =
              .ok (taken payloads n) ∨
            ∃ err, ((last.commit blake2b c again).2.load c.cacheId n worker clock).1 =
              .error err ∧ IsStorageFull err := by
  intro last
  obtain ⟨_, hstored⟩ := (lives blake2b reopen).run_alike (lives blake2b id)
    (fun _ _ _ hrel hlife => lives_alike h hreopen hrel hlife) hsame hbefore
    fun _ _ _ _ => not_false
  obtain ⟨hguarded, hcounts, hdigests⟩ := guarded_register h hstored hr hpin hok
  generalize (lives blake2b id).exec f before = g at hstored hguarded hcounts hdigests
  have hchunks : ∀ chunk ∈ putsOf r newId, chunk.1.cacheId = resolveId r.cacheId newId :=
    fun chunk => cacheId_of_mem_putsOf
  have hmeets : (lives blake2b reopen).StepsMeet (fun s life => SparesLife
      (resolveId r.cacheId newId) s life ∧ AdmitsLife ids obj life) _ later :=
    (lives blake2b reopen).stepsMeet_and hspares
      ((lives blake2b reopen).stepsMeet_of_forall hlater _)
  obtain ⟨f', hlast, hkept, hsize⟩ : Guarded ids obj R g.chunkSize (putsOf r newId) last :=
    (lives blake2b reopen).exec_induction
      (I := Guarded ids obj R g.chunkSize (putsOf r newId))
      (fun _ _ hinv hlife => guarded_step h hreopen hchunks hinv hlife.2 hlife.1) hguarded hmeets
  rw [← htokens, ← hsize] at hdigests
  have hdefault : f'.defaultTtl = e.defaultTtl := by
    rw [← hlast.defaultTtl, ← @defaultTtl_exec _ blake2b _ reopen e before]
    apply (defaultTtl_exec _ later).trans
    exact (sameSettings_of_change (change_step _ (.register r newId now))).2
  rw [← hdefault] at httl
  obtain ⟨d', hcommit, hsameDigests⟩ := commit_of_digests hdigests httl again
  obtain ⟨hreturns, hcommitted⟩ := (commit_alike
    hlast (hcid ▸ hr.1) again).same
  rw [hcommit] at hreturns hcommitted
  refine ⟨d', hreturns, hsameDigests, fun worker payloads hworker n clock hlive => ?_⟩
  obtain ⟨hloaded, _⟩ := (load_alike (TieredSimulation.standsFor_cold h) hcommitted c.cacheId n
    worker clock).same
  rw [hloaded, hcid]
  have hpublished : (f'.publish (resolveId r.cacheId newId) d').descriptors.lookup
      (resolveId r.cacheId newId) = some d' := by
    rw [ExplicitKVCache.publish, OrderedDict.lookup_setItem, if_pos rfl]
  refine load_kept (f := f'.publish _ d') hkept hpublished hlive hworker ?_ n
  rw [length_of_countsAgree hcounts hworker, CacheDescriptor.numChunks, ← hsize, ← htokens]
  exact length_of_fingerprints (hsameDigests ▸ hdigests)

end Cold

end LlmCache.Engine.Restarts
