import LlmCache.Engine.Batches
import LlmCache.Engine.Prefix

/-!
# What a registration leaves in a bounded store

A registration that returns may have evicted chunks of its own, and one that
raises may leave chunks behind.
-/

namespace LlmCache.Engine.Registering

open Errors Lib Payload LlmCache.Types Store ExplicitKVCache Descriptors Prefix Chunks CPUBackend
  CPUInvariants Batches

variable {blake2b : List UInt8 → String}

/-! ## Registrations that return -/

/-- A lookup of the tokens finds the cache complete, and a load for each worker
returns the payloads that were given for it. -/
structure Loadable (blake2b : List UInt8 → String) (s : ExplicitKVCache CPUBackend)
    (r : Registration) (newId : String) (clock stamp reading : Time) : Prop where
  full : ∃ result,
    (s.lookup blake2b (resolveId r.cacheId newId) (some r.tokenIds) clock stamp).1 = .ok result ∧
      result.full = true ∧ result.numTokens = r.tokenIds.length
  loads : ∀ worker payloads, (normalizePayloads r.payloads).lookup worker = some payloads →
    ((s.lookup blake2b (resolveId r.cacheId newId) (some r.tokenIds) clock stamp).2.load
      (resolveId r.cacheId newId) none worker reading).1 = .ok payloads

/-- The registration as it was published. -/
structure Published (blake2b : List UInt8 → String) (s s' : ExplicitKVCache CPUBackend)
    (r : Registration) (newId : String) (d : CacheDescriptor) : Prop where
  counts : countsAgree s r
  puts : (putChunks r.pin (putsOf r newId) s.store).1 = .ok ()
  describes : Describes blake2b d (.registration r)
  chunkSize : d.chunkSize = s.chunkSize
  state : s' = (stored s r newId).publish (resolveId r.cacheId newId) d

theorem published_of_ok {s : ExplicitKVCache CPUBackend} {r : Registration} {newId : String}
    {now : Time} {d : CacheDescriptor} (hok : (s.register blake2b r newId now).1 = .ok d) :
    Published blake2b s (s.register blake2b r newId now).2 r newId d := by
  have hend : RegisterEnd blake2b s r newId now (s.register blake2b r newId now) :=
    register_end s r newId now
  generalize s.register blake2b r newId now = out at hok hend
  cases hend with
  | refused => cases hok
  | full => cases hok
  | overflow => cases hok
  | published hcounts hputs hd hsize =>
      cases hok
      exact ⟨hcounts, hputs, hd, hsize, rfl⟩

variable {s s' : ExplicitKVCache CPUBackend} {r : Registration} {newId : String}
  {d : CacheDescriptor}

theorem Published.length_payloads (h : Published blake2b s s' r newId d) {worker : Int}
    {payloads : List KVPayload} (hpayloads : (normalizePayloads r.payloads).lookup worker =
      some payloads) : payloads.length = d.numChunks := by
  have hlength := length_of_checkCounts h.counts ⟨worker, payloads⟩
    (AList.mem_lookup_iff.mp hpayloads)
  rw [h.describes.numChunks, h.chunkSize]
  exact hlength

theorem Published.lookup (h : Published blake2b s s' r newId d) {clock : Time}
    (hlive : d.isExpired none clock = false) (stamp : Time) :
    s'.lookup blake2b (resolveId r.cacheId newId) (some r.tokenIds) clock stamp =
      (.ok ⟨resolveId r.cacheId newId, r.tokenIds.length, d.numChunks, true⟩,
        s'.publish (resolveId r.cacheId newId)
          { d with hits := d.hits + 1, lastUsedAt := some stamp }) := by
  have hd : s'.descriptors.lookup (resolveId r.cacheId newId) = some d := by
    rw [h.state]
    exact lookup_publish_self ..
  have hmatched : matchedChunks blake2b d (some r.tokenIds) = .ok d.numChunks :=
    matchedChunkCount_self h.describes
  have htokens : d.numTokens = r.tokenIds.length := h.describes.numTokens
  rw [lookup_of_live hd hlive hmatched stamp, if_pos rfl, htokens, decide_eq_true rfl]

theorem Published.load (h : Published blake2b s s' r newId d) {reading : Time}
    (hlive : d.isExpired none reading = false) (stamp : Time) (worker : Int) :
    ((s'.publish (resolveId r.cacheId newId)
        { d with hits := d.hits + 1, lastUsedAt := some stamp }).load
      (resolveId r.cacheId newId) none worker reading).1 =
      (loadLoop (resolveId r.cacheId newId) worker (List.range d.numChunks)
        (putChunks r.pin (putsOf r newId) s.store).2).1 := by
  have hlive' : ({ d with hits := d.hits + 1, lastUsedAt := some stamp } :
      CacheDescriptor).isExpired none reading = false := hlive
  simp [ExplicitKVCache.load, liveDescriptor, hlive', h.state]
  rfl

theorem Published.loads_iff (h : Published blake2b s s' r newId d) :
    (∀ worker payloads, (normalizePayloads r.payloads).lookup worker = some payloads →
        (loadLoop (resolveId r.cacheId newId) worker (List.range d.numChunks)
          (putChunks r.pin (putsOf r newId) s.store).2).1 = .ok payloads) ↔
      ∀ chunk ∈ putsOf r newId,
        (putChunks r.pin (putsOf r newId) s.store).2.resident chunk.1 = some chunk.2 := by
  simp only [loadLoop_ok_iff_map]
  constructor
  · rintro hloads ⟨key, obj⟩ hchunk
    obtain ⟨worker, index, rfl, hobj⟩ := (mem_putsOf_iff r newId key obj).mp hchunk
    obtain ⟨payloads, hpayloads, hget⟩ := Option.bind_eq_some_iff.mp hobj
    have hindex := congrArg (·[index]?) (hloads worker payloads hpayloads)
    obtain ⟨hlt, _⟩ := List.getElem?_eq_some_iff.mp hget
    rw [h.length_payloads hpayloads] at hlt
    simpa [hget, hlt, eq_comm] using hindex
  · intro hresident worker payloads hpayloads
    apply List.ext_getElem
    · simp [h.length_payloads hpayloads]
    · intro index hindex _
      rw [List.length_map] at hindex
      simp only [List.getElem_map, List.getElem_range]
      refine (hresident (_, payloads[index]) ((mem_putsOf_iff r newId _ _).mpr
        ⟨worker, index, rfl, ?_⟩)).symm
      rw [chunkOf, hpayloads, Option.bind_some, List.getElem?_eq_getElem]

theorem resident_iff_accepted (h : Accounted s.store)
    (hok : (putChunks r.pin (putsOf r newId) s.store).1 = .ok ()) :
    (∀ chunk ∈ putsOf r newId,
        (putChunks r.pin (putsOf r newId) s.store).2.resident chunk.1 = some chunk.2) ↔
      Accepted s.store true (putsOf r newId) := by
  rcases putChunks_cases h (nodup_putsOf r newId) r.pin with
    ⟨_, hafter⟩ | ⟨_, _, _, _, _, _, _, _, _, hputs⟩
  · rw [← survives_iff_accepted hafter.accepted]
    constructor
    · intro hall before chunk later hsplit
      rw [← hafter.held before chunk later hsplit, mem_keys_iff, hall chunk (by simp [hsplit])]
      rfl
    · intro hall chunk hchunk
      obtain ⟨before, later, hsplit⟩ := List.append_of_mem hchunk
      exact hafter.stored chunk hchunk
        ((hafter.held before chunk later hsplit).mpr (hall before chunk later hsplit))
  · rw [hputs] at hok
    cases hok

/-- A registration that returns can be loaded exactly when the store could have
taken all its chunks pinned. -/
theorem registered_loadable_iff (blake2b : List UInt8 → String) (s : ExplicitKVCache CPUBackend)
    {capacity : Option Nat} (hempty : s.store = { capacityBytes := capacity })
    (ops : List EngineOp) (r : Registration) (newId : String) (now : Time) {d : CacheDescriptor}
    (hok : (((machine blake2b CPUBackend).exec s ops).register blake2b r newId now).1 = .ok d)
    {clock reading : Time} (hclock : d.isExpired none clock = false)
    (hreading : d.isExpired none reading = false) (stamp : Time) :
    Loadable blake2b (((machine blake2b CPUBackend).exec s ops).register blake2b r newId now).2
        r newId clock stamp reading ↔
      Accepted ((machine blake2b CPUBackend).exec s ops).store true (putsOf r newId) := by
  have haccounted := accounted_engine blake2b hempty ops
  have hpublished := published_of_ok hok
  rw [← resident_iff_accepted haccounted hpublished.puts, ← hpublished.loads_iff]
  have hlookup := hpublished.lookup hclock stamp
  have hload := hpublished.load hreading stamp
  constructor
  · intro hloadable worker payloads hpayloads
    have hloads := hloadable.loads worker payloads hpayloads
    rwa [hlookup, hload] at hloads
  · intro hloads
    refine ⟨⟨_, congrArg Prod.fst hlookup, rfl, rfl⟩, ?_⟩
    intro worker payloads hpayloads
    rw [hlookup, hload]
    exact hloads worker payloads hpayloads

/-- Two chunks that fit beside each other, after another cache was registered. -/
theorem registered_loadable_iff_fits :
    let s : ExplicitKVCache CPUBackend := ⟨{ capacityBytes := some 4 }, 2, by decide, none, ∅⟩
    let other : Registration := ⟨[4], .sequence [.ofBytes [1]], some "d", none, false, none⟩
    let r : Registration :=
      ⟨[1, 2, 3], .sequence [.ofBytes [7, 8], .ofBytes [9]], some "c", some 60, false, none⟩
    let reached := (machine sampleDigest CPUBackend).exec s [.register other "new" 0]
    Loadable sampleDigest (reached.register sampleDigest r "new" 5).2 r "new" 6 6 7 ↔
      Accepted reached.store true (putsOf r "new") := by
  intro s other r reached
  have hok : (reached.register sampleDigest r "new" 5).1 = .ok ⟨"c", 3, 2, 1, [0], 5, some 65,
      false, ["2cc5e4d47c5f3c5fbe635a5a5b7bb392", "de18007c0afadc771c45bf719bc7fe51"], none, 0,
      none⟩ := by
    decide +kernel
  exact registered_loadable_iff sampleDigest s rfl [.register other "new" 0] r "new" 5 hok
    (by decide) (by decide) 6

/-- The second chunk of a registration evicts the first one. -/
theorem own_chunk_evicted :
    let s : ExplicitKVCache CPUBackend := ⟨{ capacityBytes := some 3 }, 2, by decide, none, ∅⟩
    let r : Registration :=
      ⟨[1, 2, 3], .sequence [.ofBytes [7, 8], .ofBytes [9, 10]], some "c", none, false, none⟩
    let out := s.register sampleDigest r "new" 0
    out.1.isOk = true ∧ ¬Loadable sampleDigest out.2 r "new" 0 0 0 ∧
      ((out.2.lookup sampleDigest "c" (some [1, 2, 3]) 0 0).1.map fun found => found.full) =
        .ok true ∧
      (out.2.load "c" none 0 0).1 = .error (.cacheMismatch "c" 0 0) := by
  intro s r out
  refine ⟨by decide +kernel, fun hloadable => ?_, by decide +kernel, by decide +kernel⟩
  have hloads := hloadable.loads 0 [.ofBytes [7, 8], .ofBytes [9, 10]] rfl
  have hraises : ((out.2.lookup sampleDigest "c" (some [1, 2, 3]) 0 0).2.load "c" none 0 0).1.isOk =
      false := by
    decide +kernel
  have hid : resolveId r.cacheId "new" = "c" := by decide
  rw [hid] at hloads
  rw [hloads] at hraises
  cases hraises

/-! ## Registrations that raise -/

/-- A call on the cache `cid` added no chunk of it, no pin and no descriptor. -/
structure Untraced (cid : String) (s s' : ExplicitKVCache CPUBackend) : Prop where
  chunks : ∀ key, key.cacheId = cid → key ∈ s'.store.keys → key ∈ s.store.keys
  pins : s'.store.pinned ⊆ s.store.pinned
  descriptors : s'.descriptors = s.descriptors

/-- The puts of `done` pin no new key, and of their chunks only those remain
whose keys were resident before. -/
structure LeavesNothing (s : CPUBackend) (pin : Bool) (done : List Chunk)
    (Remains : List Chunk → Chunk → List Chunk → Prop) : Prop where
  pins : pin = true → ∀ chunk ∈ done, chunk.1 ∈ s.pinned
  chunks : ∀ before chunk later, done = before ++ chunk :: later → Remains before chunk later →
    chunk.1 ∈ s.keys

/-- Wherever the registration stops, nothing is left of what it did before: at
its counts, at the first chunk that finds no room, or at its lifetime or tokens. -/
structure StopsClean (s : ExplicitKVCache CPUBackend) (r : Registration) (newId : String) :
    Prop where
  full : ∀ done next rest, putsOf r newId = done ++ next :: rest →
    Accepted s.store r.pin done → ¬FitsBeside s.store r.pin done [] next →
    LeavesNothing s.store r.pin done (RemainsBeside s.store r.pin done)
  overflow : Accepted s.store r.pin (putsOf r newId) →
    LeavesNothing s.store r.pin (putsOf r newId) (Survives s.store r.pin)

theorem untraced_iff_leavesNothing {cid : String} {pin : Bool} {done : List Chunk}
    {Remains : List Chunk → Chunk → List Chunk → Prop}
    (hcid : ∀ chunk ∈ done, chunk.1.cacheId = cid) (hdescriptors : s'.descriptors = s.descriptors)
    (hpins : ∀ key, key ∈ s'.store.pinned ↔
      key ∈ s.store.pinned ∨ pin = true ∧ key ∈ keysOf done)
    (hothers : ∀ key ∉ keysOf done, key ∈ s'.store.keys → key ∈ s.store.keys)
    (hkeys : ∀ before chunk later, done = before ++ chunk :: later →
      (chunk.1 ∈ s'.store.keys ↔ Remains before chunk later)) :
    Untraced cid s s' ↔ LeavesNothing s.store pin done Remains := by
  constructor
  · intro h
    constructor
    · intro hpin chunk hchunk
      exact h.pins ((hpins chunk.1).mpr (.inr ⟨hpin, List.mem_map_of_mem hchunk⟩))
    · intro before chunk later hdone hremains
      apply h.chunks chunk.1 (hcid chunk (by simp [hdone]))
      exact (hkeys before chunk later hdone).mpr hremains
  · intro h
    refine ⟨fun key _ hkey => ?_, fun key hkey => ?_, hdescriptors⟩
    · by_cases hdone : key ∈ keysOf done
      · obtain ⟨chunk, hchunk, rfl⟩ := List.mem_map.mp hdone
        obtain ⟨before, later, hsplit⟩ := List.append_of_mem hchunk
        exact h.chunks before chunk later hsplit ((hkeys before chunk later hsplit).mp hkey)
      · exact hothers key hdone hkey
    · rcases (hpins key).mp hkey with hold | ⟨hpin, hdone⟩
      · exact hold
      · obtain ⟨chunk, hchunk, rfl⟩ := List.mem_map.mp hdone
        exact h.pins hpin chunk hchunk

theorem cacheId_of_mem {chunk : Chunk} (h : chunk ∈ putsOf r newId) :
    chunk.1.cacheId = resolveId r.cacheId newId :=
  cacheId_of_mem_putsOf h

/-- The registration stops at a chunk that finds no room. -/
theorem untraced_of_full (haccounted : Accounted s.store) {err : Raised}
    (hputs : (putChunks r.pin (putsOf r newId) s.store).1 = .error err) :
    Untraced (resolveId r.cacheId newId) s (stored s r newId) ↔ StopsClean s r newId := by
  rcases putChunks_cases haccounted (nodup_putsOf r newId) r.pin with
    ⟨hok, _⟩ | ⟨done, next, rest, t, err', hsplit, hafter, hfull, herr, hend⟩
  · rw [hok] at hputs
    cases hputs
  have hnext : next.1 ∉ keysOf done := next_notMem_keysOf (hsplit ▸ nodup_putsOf r newId)
  have hstore : (stored s r newId).store = (KeyedStore.put t next.1 next.2 r.pin).2 := by
    rw [stored, hend]
  have hclean : Untraced (resolveId r.cacheId newId) s (stored s r newId) ↔
      LeavesNothing s.store r.pin done (RemainsBeside s.store r.pin done) := by
    apply untraced_iff_leavesNothing
    · exact fun chunk hchunk => cacheId_of_mem (hsplit ▸ List.mem_append_left _ hchunk)
    · rfl
    · intro key
      have hpinned : (KeyedStore.put t next.1 next.2 r.pin).2.pinned = t.pinned :=
        pinned_put_of_error receives_noCallback herr
      rw [hstore, hpinned, hafter.pinned]
    · intro key hkey hmem
      rw [hstore, mem_keys_iff] at hmem
      obtain ⟨held, hheld⟩ := Option.isSome_iff_exists.mp hmem
      have hold := forgets_put_of_error herr held hheld
      exact hafter.others key hkey ((mem_keys_iff ..).mpr (Option.isSome_of_eq_some hold))
    · intro before chunk later hdone
      rw [hstore]
      exact hafter.remains_iff hnext herr hdone
  rw [hclean]
  constructor
  · intro hleft
    refine ⟨fun done' next' rest' hsplit' haccepted' hfull' => ?_, fun haccepted => ?_⟩
    · obtain ⟨rfl, rfl⟩ := stop_unique (hsplit.symm.trans hsplit') hafter.accepted haccepted' hfull
        hfull'
      exact hleft
    · exact absurd (haccepted done next rest hsplit) hfull
  · exact fun h => h.full done next rest hsplit hafter.accepted hfull

/-- The registration stops at its lifetime or at a token, with all chunks stored. -/
theorem untraced_of_overflow (haccounted : Accounted s.store)
    (hputs : (putChunks r.pin (putsOf r newId) s.store).1 = .ok ()) :
    Untraced (resolveId r.cacheId newId) s (stored s r newId) ↔ StopsClean s r newId := by
  rcases putChunks_cases haccounted (nodup_putsOf r newId) r.pin with
    ⟨_, hafter⟩ | ⟨_, _, _, _, _, _, _, _, _, hend⟩
  · have hclean : Untraced (resolveId r.cacheId newId) s (stored s r newId) ↔
        LeavesNothing s.store r.pin (putsOf r newId) (Survives s.store r.pin) :=
      untraced_iff_leavesNothing (fun _ => cacheId_of_mem) rfl hafter.pinned hafter.others
        hafter.held
    rw [hclean]
    constructor
    · intro hleft
      refine ⟨fun done next rest hsplit _ hfull => ?_, fun _ => hleft⟩
      exact absurd (hafter.accepted done next rest hsplit) hfull
    · exact fun h => h.overflow hafter.accepted
  · rw [hend] at hputs
    cases hputs

/-- A registration that raises leaves nothing behind exactly when its counts
disagree, or it stops clean. -/
theorem failed_register_untraced_iff (blake2b : List UInt8 → String)
    (s : ExplicitKVCache CPUBackend) {capacity : Option Nat}
    (hempty : s.store = { capacityBytes := capacity }) (ops : List EngineOp) (r : Registration)
    (newId : String) (now : Time) {err : Raised}
    (hraises : (((machine blake2b CPUBackend).exec s ops).register blake2b r newId now).1 =
      .error err) :
    Untraced (resolveId r.cacheId newId) ((machine blake2b CPUBackend).exec s ops)
        (((machine blake2b CPUBackend).exec s ops).register blake2b r newId now).2 ↔
      (countsAgree ((machine blake2b CPUBackend).exec s ops) r →
        StopsClean ((machine blake2b CPUBackend).exec s ops) r newId) := by
  have haccounted := accounted_engine blake2b hempty ops
  generalize (machine blake2b CPUBackend).exec s ops = reached at haccounted hraises ⊢
  have hend : RegisterEnd blake2b reached r newId now (reached.register blake2b r newId now) :=
    register_end reached r newId now
  generalize reached.register blake2b r newId now = out at hraises hend ⊢
  cases hend with
  | refused hcounts =>
      refine iff_of_true ⟨fun _ _ hkey => hkey, fun _ hkey => hkey, rfl⟩ ?_
      exact fun hagree => absurd hagree hcounts
  | full hcounts hputs =>
      rw [untraced_of_full haccounted hputs]
      simp [hcounts]
  | overflow hcounts hputs =>
      rw [untraced_of_overflow haccounted hputs]
      simp [hcounts]
  | published => cases hraises

/-- The second chunk finds no room beside a pinned object, and takes the first
chunk with it. -/
theorem failed_register_untraced_iff_full :
    let s : ExplicitKVCache CPUBackend := ⟨{ capacityBytes := some 4 }, 2, by decide, none, ∅⟩
    let other : Registration := ⟨[4], .sequence [.ofBytes [1]], some "d", none, true, none⟩
    let r : Registration := ⟨[1, 2, 3], .sequence [.ofBytes [7, 8], .ofBytes [9, 10, 11, 12]],
      some "c", none, false, none⟩
    let reached := (machine sampleDigest CPUBackend).exec s [.register other "new" 0]
    Untraced "c" reached (reached.register sampleDigest r "new" 0).2 ↔
      (countsAgree reached r → StopsClean reached r "new") := by
  intro s other r reached
  have hraises : (reached.register sampleDigest r "new" 0).1 =
      .error (.storageFull "cannot free enough space: remaining objects are pinned") := by
    decide +kernel
  exact failed_register_untraced_iff sampleDigest s rfl [.register other "new" 0] r "new" 0 hraises

/-- A token outside 32 bits is found when both chunks are stored and pinned. -/
theorem overflow_leaves_pinned_chunks :
    let s : ExplicitKVCache CPUBackend := ⟨{ capacityBytes := some 8 }, 2, by decide, none, ∅⟩
    let r : Registration := ⟨[1, 2, 2147483648], .sequence [.ofBytes [7], .ofBytes [8]], some "c",
      none, true, none⟩
    let out := s.register sampleDigest r "new" 0
    out.1 = .error (.overflowError 2147483648) ∧ ¬Untraced "c" s out.2 ∧
      out.2.store.keys = [⟨"c", 0, 0⟩, ⟨"c", 1, 0⟩] ∧
      (out.2.delete "c").store.pinned = {⟨"c", 0, 0⟩, ⟨"c", 1, 0⟩} := by
  intro s r out
  refine ⟨by decide +kernel, fun huntraced => ?_, by decide +kernel, by decide +kernel⟩
  have hstored : (⟨"c", 0, 0⟩ : ChunkKey) ∈ out.2.store.keys := by decide +kernel
  have hbefore := huntraced.chunks ⟨"c", 0, 0⟩ rfl hstored
  cases hbefore

end LlmCache.Engine.Registering
