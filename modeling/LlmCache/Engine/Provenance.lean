import LlmCache.Engine.Chunks
import LlmCache.Engine.Prefix

/-!
# Whose chunks an explicit hit serves

The descriptor and the chunks of a cache are written separately, so they stay
together only while no registration that stores a chunk under a live id fails
afterwards.  Then every chunk of a live cache, for one of its own workers, is
the chunk that the registration of its descriptor supplied.
-/

namespace LlmCache.Engine.Provenance

open Errors Lib Payload LlmCache.Types Store ExplicitKVCache Descriptors Chunks Prefix

variable {blake2b : List UInt8 → String}

/-- The puts store no chunk: there are none, or the first one is refused. -/
def StoresNone (store : CPUBackend) (pin : Bool) : List (ChunkKey × KVPayload) → Prop
  | [] => True
  | (key, obj) :: _ => (KeyedStore.put store key obj pin).1 ≠ .ok ()

/-- A registration that cannot leave chunks of its own under another's
descriptor: its id has no descriptor, or it returns, or it raises before it has
stored a chunk.  Chunks are not written past `register`. -/
def KeepsChunks (blake2b : List UInt8 → String) (s : ExplicitKVCache CPUBackend) :
    EngineOp → Prop
  | .register r newId _ =>
      s.descriptors.lookup (resolveId r.cacheId newId) = none ∨ ¬countsAgree s r ∨
        StoresNone s.store r.pin (putsOf r newId) ∨
        ((putChunks r.pin (putsOf r newId) s.store).1 = .ok () ∧
          (∀ ttl ∈ r.ttl.or s.defaultTtl, ttl.Addable) ∧
          (fingerprints blake2b (tokenSlices r.tokenIds s.chunkSize)).isOk)
  | .putChunk .. | .commit .. => False
  | _ => True

/-- The registrations that have returned normally. -/
def Registered (past : List (EngineOp × Except Raised EngineReply)) (cid : String)
    (r : Registration) : Prop :=
  ∃ newId now d, (.register r newId now, .ok (.descriptor d)) ∈ past ∧
    resolveId r.cacheId newId = cid

/-- What a lookup counts and a load for the worker then returns comes from one
registration of the id. -/
def ServesOne (blake2b : List UInt8 → String)
    (past : List (EngineOp × Except Raised EngineReply)) (s : ExplicitKVCache CPUBackend)
    (cid : String) (request : List Int) (worker : Int) : Prop :=
  ∀ clock stamp clock' result payloads,
    (s.lookup blake2b cid (some request) clock stamp).1 = .ok result →
    (((s.lookup blake2b cid (some request) clock stamp).2).load cid (some result.numChunks)
      worker clock').1 = .ok payloads →
    ∃ r, Registered past cid r ∧ payloads.length = result.numChunks ∧ ∀ i < result.numChunks,
      (∃ chunk, (tokenSlices r.tokenIds s.chunkSize)[i]? = some chunk ∧
        (tokenSlices request s.chunkSize)[i]? = some chunk) ∧
      ∃ payload, chunkOf r worker i = some payload ∧ payloads[i]? = some payload

/-- The worker is one of the descriptor's, or has no first chunk to serve, or
there is nothing to serve. -/
def ServedWorker (blake2b : List UInt8 → String) (s : ExplicitKVCache CPUBackend) (cid : String)
    (request : List Int) (worker : Int) : Prop :=
  ∀ d, s.descriptors.lookup cid = some d → worker ∈ d.workerIds ∨
    matchedChunkCount blake2b request d = .ok 0 ∨ s.store.resident ⟨cid, 0, worker⟩ = none

/-- The chunks under a descriptor's keys are those of one registration, or gone. -/
structure ChunksOf (size : Nat) (blake2b : List UInt8 → String) (store : CPUBackend)
    (cid : String) (d : CacheDescriptor) (r : Registration) : Prop where
  describes : Describes blake2b d (.registration r)
  chunkSize : d.chunkSize = size
  chunks : ∀ worker ∈ d.workerIds, ∀ index : Nat, index < d.numChunks → ∀ obj,
    store.resident ⟨cid, index, worker⟩ = some obj → chunkOf r worker index = some obj

/-- The invariant. -/
structure Traceable (size : Nat) (blake2b : List UInt8 → String)
    (past : List (EngineOp × Except Raised EngineReply)) (s : ExplicitKVCache CPUBackend) :
    Prop where
  chunkSize : s.chunkSize = size
  descriptors : ∀ cid d, s.descriptors.lookup cid = some d →
    ∃ r, Registered past cid r ∧ ChunksOf size blake2b s.store cid d r

theorem Registered.snoc {past : List (EngineOp × Except Raised EngineReply)} {cid : String}
    {r : Registration} (h : Registered past cid r) (entry : EngineOp × Except Raised EngineReply) :
    Registered (past ++ [entry]) cid r := by
  obtain ⟨newId, now, d, hmem, hid⟩ := h
  exact ⟨newId, now, d, List.mem_append_left _ hmem, hid⟩

theorem ChunksOf.of_forgets {size : Nat} {store store' : CPUBackend} {cid : String}
    {d d' : CacheDescriptor} {r : Registration} (h : ChunksOf size blake2b store cid d r)
    (hsame : SameCache d d')
    (hforgets : ∀ worker ∈ d.workerIds, ∀ index : Nat, index < d.numChunks →
      Forgets ⟨cid, index, worker⟩ store store') :
    ChunksOf size blake2b store' cid d' r where
  describes := h.describes.of_same hsame
  chunkSize := by rw [hsame.chunkSize, h.chunkSize]
  chunks := by
    intro worker hworker index hindex obj hobj
    rw [hsame.workerIds] at hworker
    rw [hsame.numChunks] at hindex
    exact h.chunks worker hworker index hindex obj
      (hforgets worker hworker index hindex obj hobj)

theorem forgets_of_storesNone {store : CPUBackend} {pin : Bool}
    {puts : List (ChunkKey × KVPayload)} (h : StoresNone store pin puts) (k : ChunkKey) :
    Forgets k store (putChunks pin puts store).2 := by
  cases puts with
  | nil => exact .of_eq rfl
  | cons chunk rest =>
      obtain ⟨key, obj⟩ := chunk
      simp only [putChunks]
      cases hput : (KeyedStore.put store key obj pin).1 with
      | error err => exact forgets_put_of_error hput
      | ok _ => exact absurd hput h

theorem forgets_stored_other (s : ExplicitKVCache CPUBackend) (r : Registration) (newId : String)
    {k : ChunkKey} (hk : k.cacheId ≠ resolveId r.cacheId newId) :
    Forgets k s.store (stored s r newId).store :=
  forgets_putChunks (fun _ hobj => hk (cacheId_of_mem_putsOf hobj)) r.pin s.store

/-- A freshly published descriptor stands over its own chunks. -/
theorem chunksOf_published {s : ExplicitKVCache CPUBackend} {r : Registration} {newId : String}
    {d : CacheDescriptor} (hcounts : countsAgree s r)
    (hputs : (putChunks r.pin (putsOf r newId) s.store).1 = .ok ())
    (hd : Describes blake2b d (.registration r)) (hsize : d.chunkSize = s.chunkSize) :
    ChunksOf s.chunkSize blake2b (stored s r newId).store (resolveId r.cacheId newId) d r where
  describes := hd
  chunkSize := hsize
  chunks := by
    intro worker hworker index hindex obj hobj
    rw [hd.workerIds] at hworker
    rw [hd.numChunks, hsize] at hindex
    obtain ⟨chunk, hchunk⟩ := chunkOf_isSome hcounts hworker hindex
    have hmem : (⟨resolveId r.cacheId newId, index, worker⟩, chunk) ∈ putsOf r newId :=
      (mem_putsOf_iff r newId _ _).mpr ⟨worker, index, rfl, hchunk⟩
    have heq := resident_putChunks hmem (fun o ho => eq_of_mem_putsOf hchunk ho) hputs hobj
    rw [hchunk, heq]

/-- A call that leaves every descriptor in place or drops it, and only makes the
store forget chunks. -/
theorem traceable_of_kept {size : Nat} {past : List (EngineOp × Except Raised EngineReply)}
    {s s' : ExplicitKVCache CPUBackend} (hinv : Traceable size blake2b past s)
    (entry : EngineOp × Except Raised EngineReply) (hsize : s'.chunkSize = s.chunkSize)
    (hkept : ∀ cid d', s'.descriptors.lookup cid = some d' →
      ∃ d, s.descriptors.lookup cid = some d ∧ SameCache d d' ∧
        ∀ index worker, Forgets ⟨cid, index, worker⟩ s.store s'.store) :
    Traceable size blake2b (past ++ [entry]) s' where
  chunkSize := hsize.trans hinv.chunkSize
  descriptors := by
    intro cid d' hd'
    obtain ⟨d, hd, hsame, hforgets⟩ := hkept cid d' hd'
    obtain ⟨r, hr, hchunks⟩ := hinv.descriptors cid d hd
    exact ⟨r, hr.snoc entry, hchunks.of_forgets hsame fun worker _ index _ => hforgets index worker⟩

theorem forgets_delete (s : ExplicitKVCache CPUBackend) (cid : String) (k : ChunkKey) :
    Forgets k s.store (s.delete cid).store := by
  unfold ExplicitKVCache.delete
  cases s.descriptors.lookup cid with
  | none => exact .of_eq rfl
  | some d => exact forgets_removeAll _ _

theorem forgets_foldl_delete (ds : List CacheDescriptor) (s : ExplicitKVCache CPUBackend)
    (k : ChunkKey) :
    Forgets k s.store (ds.foldl (fun s d => s.delete d.cacheId) s).store := by
  induction ds generalizing s with
  | nil => exact .of_eq rfl
  | cons d ds ih => exact (forgets_delete s d.cacheId k).trans (ih _)

theorem traceable_register {size : Nat} {past : List (EngineOp × Except Raised EngineReply)}
    {s : ExplicitKVCache CPUBackend} {r : Registration} {newId : String} {now : Time}
    {out : Except Raised CacheDescriptor × ExplicitKVCache CPUBackend}
    (hinv : Traceable size blake2b past s) (hend : RegisterEnd blake2b s r newId now out)
    (hguard : KeepsChunks blake2b s (.register r newId now)) :
    Traceable size blake2b (past ++ [(.register r newId now, out.1.map .descriptor)]) out.2 := by
  -- a registration that raises after its puts have begun
  have hraising : (∃ err, out.1 = .error err) → countsAgree s r → out.2 = stored s r newId →
      ¬((putChunks r.pin (putsOf r newId) s.store).1 = .ok () ∧
        (∀ ttl ∈ r.ttl.or s.defaultTtl, ttl.Addable) ∧
        (fingerprints blake2b (tokenSlices r.tokenIds s.chunkSize)).isOk) →
      Traceable size blake2b (past ++ [(.register r newId now, out.1.map .descriptor)]) out.2 := by
    intro _ hcounts hout hraises
    have hsize : (stored s r newId).chunkSize = s.chunkSize := rfl
    rw [hout]
    apply traceable_of_kept hinv _ hsize
    intro cid d hd
    refine ⟨d, hd, .refl d, fun index worker => ?_⟩
    rcases hguard with hnone | hrefused | hstores | hreturns
    · apply forgets_stored_other s r newId
      rintro rfl
      have habsent : s.descriptors.lookup (resolveId r.cacheId newId) = some d := hd
      rw [hnone] at habsent
      cases habsent
    · exact absurd hcounts hrefused
    · exact forgets_of_storesNone hstores _
    · exact absurd hreturns hraises
  cases hend with
  | refused =>
      apply traceable_of_kept hinv _ rfl
      exact fun cid d hd => ⟨d, hd, .refl d, fun _ _ => .of_eq rfl⟩
  | full hcounts hputs =>
      exact hraising ⟨_, rfl⟩ hcounts rfl fun h => by simp [hputs] at h
  | overflow hcounts hputs hbuilt =>
      refine hraising ⟨_, rfl⟩ hcounts rfl fun ⟨_, haddable, hdigests⟩ => ?_
      rcases hbuilt with hexpiry | hraised
      · obtain ⟨expiresAt, hok⟩ := (Ttl.expiry_ok_iff now _).mpr haddable
        cases hexpiry.symm.trans hok
      · simp [hraised, Except.isOk, Except.toBool] at hdigests
  | @published d hcounts hputs hd hsize _ _ _ =>
      refine ⟨hinv.chunkSize, fun cid d' hd' => ?_⟩
      simp only [publish, OrderedDict.lookup_setItem] at hd'
      split_ifs at hd' with hcid
      · obtain rfl := Option.some.inj hd'
        subst hcid
        refine ⟨r, ⟨newId, now, d, by simp [Except.map], rfl⟩, ?_⟩
        rw [← hinv.chunkSize]
        exact chunksOf_published hcounts hputs hd hsize
      · obtain ⟨r', hr', hchunks⟩ := hinv.descriptors cid d' hd'
        refine ⟨r', hr'.snoc _, hchunks.of_forgets (.refl d') fun worker _ index _ => ?_⟩
        exact forgets_stored_other s r newId hcid

theorem traceable_step {size : Nat} {past : List (EngineOp × Except Raised EngineReply)}
    {s : ExplicitKVCache CPUBackend} (hinv : Traceable size blake2b past s) (op : EngineOp)
    (hguard : KeepsChunks blake2b s op) :
    Traceable size blake2b (past ++ [(op, (step blake2b s op).1)]) (step blake2b s op).2 := by
  have hchange : Change blake2b s op (step blake2b s op).1 (step blake2b s op).2 :=
    change_step s op
  generalize (step blake2b s op).1 = out, (step blake2b s op).2 = s' at hchange
  -- an edited descriptor over a store whose residents are the same
  have hedited : ∀ cid (d d₁ : CacheDescriptor) (store : CPUBackend),
      s.descriptors.lookup cid = some d → SameCache d d₁ →
      (∀ k, store.resident k = s.store.resident k) →
      Traceable size blake2b (past ++ [(op, out)]) { s.publish cid d₁ with store := store } := by
    intro cid d d₁ store hd hsame hres
    refine traceable_of_kept hinv _ (by rfl) ?_
    intro k d' hd'
    simp only [publish, OrderedDict.lookup_setItem] at hd'
    split_ifs at hd' with hk
    · obtain rfl := Option.some.inj hd'
      exact ⟨d, hk ▸ hd, hsame, fun _ _ => .of_eq (hres _)⟩
    · exact ⟨d', hd', .refl d', fun _ _ => .of_eq (hres _)⟩
  cases hchange with
  | unchanged =>
      apply traceable_of_kept hinv _ rfl
      exact fun cid d hd => ⟨d, hd, .refl d, fun _ _ => .of_eq rfl⟩
  | registered hend => exact traceable_register hinv hend hguard
  | chunkPut => exact hguard.elim
  | committed => exact hguard.elim
  | deleted =>
      apply traceable_of_kept hinv _ (sameSettings_delete s _).1
      intro k d hd
      rw [lookup_delete] at hd
      split_ifs at hd
      exact ⟨d, hd, .refl d, fun _ _ => forgets_delete s _ _⟩
  | swept =>
      apply traceable_of_kept hinv _ (sameSettings_foldl_delete _ s).1
      intro k d hd
      rw [lookup_foldl_delete] at hd
      split_ifs at hd
      exact ⟨d, hd, .refl d, fun _ _ => forgets_foldl_delete _ s _⟩
  | touched hd hsame => exact hedited _ _ _ s.store hd.1 hsame fun _ => rfl
  | pinned hd =>
      exact hedited _ _ _ _ hd.1 ⟨rfl, rfl, rfl, rfl, rfl⟩ fun k => resident_foldl_pin _ _
  | unpinned hd =>
      exact hedited _ _ _ _ hd.1 ⟨rfl, rfl, rfl, rfl, rfl⟩ fun k => resident_foldl_unpin _ _
  | loaded =>
      refine traceable_of_kept hinv _ (by rfl) ?_
      intro cid d hd
      exact ⟨d, hd, .refl d, fun _ _ => .of_eq (resident_loadLoop _ _ _ _ _).1⟩

/-! ## Serving -/

theorem load_of_ok {s : ExplicitKVCache CPUBackend} {cid : String} {d : CacheDescriptor}
    (hd : s.descriptors.lookup cid = some d) {count : Nat} (hcount : count ≤ d.numChunks)
    {worker : Int} {clock : Time} {payloads : List KVPayload}
    (h : (s.load cid (some count) worker clock).1 = .ok payloads) :
    List.Forall₂ (fun (i : Nat) payload => s.store.resident ⟨cid, i, worker⟩ = some payload)
      (List.range count) payloads := by
  apply (loadLoop_ok_iff cid worker _ s.store payloads).mp
  cases hlive : d.isExpired none clock with
  | true => simp [ExplicitKVCache.load, liveDescriptor, hd, hlive] at h
  | false =>
      rw [← load_of_live hd hlive hcount worker]
      exact h

theorem servesOne_of_traceable (hinj : Function.Injective blake2b) {size : Nat}
    {past : List (EngineOp × Except Raised EngineReply)} {s : ExplicitKVCache CPUBackend}
    (hinv : Traceable size blake2b past s) {cid : String} {request : List Int} {worker : Int}
    (hworker : ServedWorker blake2b s cid request worker) :
    ServesOne blake2b past s cid request worker := by
  intro clock stamp clock' result payloads hlookup hload
  obtain ⟨d, hd, _, hmatched, _, _, hafter⟩ := lookup_of_ok hlookup
  obtain ⟨r, hr, hchunks⟩ := hinv.descriptors cid d hd
  have hpos := hchunks.describes.chunkSize_pos
  have hloop : matchLoop blake2b d.chunkFingerprints (tokenSlices request d.chunkSize) =
      .ok result.numChunks := by
    simpa only [matchedChunks, matchedChunkCount, chunkTokenIds_of_pos _ hpos] using hmatched
  obtain ⟨hslices, hle⟩ := take_slices_eq hinj hchunks.describes.digests hloop
  rw [← hchunks.describes.numChunks] at hle
  -- the lookup has only edited the descriptor, so the load reads the same store
  rw [hafter] at hload
  have hedited : (s.publish cid { d with hits := d.hits + 1, lastUsedAt := some stamp }
      ).descriptors.lookup cid = some { d with hits := d.hits + 1, lastUsedAt := some stamp } := by
    simp [publish]
  have hloaded := load_of_ok hedited hle hload
  have hlength : payloads.length = result.numChunks := by
    simpa using hloaded.length_eq.symm
  have hread : ∀ i < result.numChunks, ∃ payload, payloads[i]? = some payload ∧
      s.store.resident ⟨cid, i, worker⟩ = some payload := by
    intro i hi
    have hlt : i < payloads.length := by omega
    refine ⟨payloads[i], List.getElem?_eq_getElem hlt, ?_⟩
    have hforall := hloaded.get (by simpa using hi) hlt
    rwa [List.get_eq_getElem, List.getElem_range] at hforall
  refine ⟨r, hr, hlength, ?_⟩
  intro i hi
  have hmem : worker ∈ d.workerIds := by
    rcases hworker d hd with hmem | hnothing | habsent
    · exact hmem
    · have hzero : result.numChunks = 0 := by
        simpa [matchedChunks, hnothing, eq_comm] using hmatched
      omega
    · obtain ⟨first, _, hfirst⟩ := hread 0 (by omega)
      rw [Nat.cast_zero, habsent] at hfirst
      cases hfirst
  constructor
  · have hlt : i < (tokenSlices r.tokenIds d.chunkSize).length :=
      Nat.lt_of_lt_of_le hi (hchunks.describes.numChunks ▸ hle)
    have hslice := congrArg (·[i]?) hslices
    simp only [List.getElem?_take, if_pos hi] at hslice
    rw [hinv.chunkSize, ← hchunks.chunkSize]
    exact ⟨_, List.getElem?_eq_getElem hlt, hslice.trans (List.getElem?_eq_getElem hlt)⟩
  · obtain ⟨payload, hpayload, hresident⟩ := hread i hi
    exact ⟨payload, hchunks.chunks worker hmem i (by omega) payload hresident, hpayload⟩

/-- In every run whose registrations keep the chunks of live caches, a hit is
served from one registration. -/
theorem serves_one (hinj : Function.Injective blake2b) (s : ExplicitKVCache CPUBackend)
    (hempty : s.descriptors = ∅) (ops : List EngineOp)
    (hops : (machine blake2b CPUBackend).StepsMeet (KeepsChunks blake2b) s ops) (cid : String)
    (request : List Int) (worker : Int)
    (hworker : ServedWorker blake2b ((machine blake2b CPUBackend).exec s ops) cid request
      worker) :
    ServesOne blake2b ((machine blake2b CPUBackend).trace s ops)
      ((machine blake2b CPUBackend).exec s ops) cid request worker := by
  have hstart : Traceable s.chunkSize blake2b [] s :=
    ⟨rfl, fun cid d hd => by simp [hempty] at hd⟩
  have hinv := (machine blake2b CPUBackend).history_induction
    (I := Traceable s.chunkSize blake2b)
    (fun past s op hinv hguard => traceable_step hinv op hguard) [] hstart hops
  exact servesOne_of_traceable hinj hinv hworker

/-- A live cache registered anew with other tokens. -/
theorem serves_one_again :
    let s : ExplicitKVCache CPUBackend := ⟨{}, 2, by decide, none, ∅⟩
    let ops : List EngineOp :=
      [.register ⟨[1, 2, 3], .sequence [.ofBytes [7], .ofBytes [8]], some "c", none, false, none⟩
          "new" 0,
        .register ⟨[1, 2, 4], .sequence [.ofBytes [7], .ofBytes [9]], some "c", none, false, none⟩
          "new" 0]
    ServesOne sampleDigest ((machine sampleDigest CPUBackend).trace s ops)
      ((machine sampleDigest CPUBackend).exec s ops) "c" [1, 2, 4] 0 := by
  intro s ops
  apply serves_one sampleDigest_injective s rfl ops
  · refine ⟨.inl rfl, .inr (.inr (.inr ?_)), trivial⟩
    decide +kernel
  · intro d hd
    have hworkers : (((machine sampleDigest CPUBackend).exec s ops).descriptors.lookup "c").map
        CacheDescriptor.workerIds = some [0] := by decide +kernel
    rw [hd] at hworkers
    obtain hworkers := Option.some.inj hworkers
    simp [hworkers]

/-- A registration that raises on a token after its chunk is stored: the
descriptor of the earlier one now stands over a chunk it never supplied. -/
theorem raising_register_replaces_chunk :
    let s : ExplicitKVCache CPUBackend := ⟨{}, 2, by decide, none, ∅⟩
    let ops : List EngineOp :=
      [.register ⟨[1, 2], .sequence [.ofBytes [7]], some "c", none, false, none⟩ "new" 0,
        .register ⟨[2147483648], .sequence [.ofBytes [9]], some "c", none, false, none⟩ "new" 0]
    Function.Injective sampleDigest ∧
      ¬ServesOne sampleDigest ((machine sampleDigest CPUBackend).trace s ops)
        ((machine sampleDigest CPUBackend).exec s ops) "c" [1, 2] 0 := by
  intro s ops
  refine ⟨sampleDigest_injective, fun hserves => ?_⟩
  obtain ⟨r, ⟨newId, now, d, hmem, _⟩, _, hchunks⟩ :=
    hserves 0 0 0 ⟨"c", 2, 1, true⟩ [.ofBytes [9]] (by decide +kernel) (by decide +kernel)
  obtain ⟨_, payload, hpayload, hserved⟩ := hchunks 0 (by decide)
  rcases List.mem_cons.mp hmem with hfirst | hmem
  · simp only [Prod.mk.injEq, EngineOp.register.injEq] at hfirst
    obtain ⟨⟨rfl, _⟩, _⟩ := hfirst
    have hsupplied : some (KVPayload.ofBytes [7]) = some payload := hpayload
    rw [← hsupplied] at hserved
    exact absurd hserved (by decide +kernel)
  · have hraised : ((machine sampleDigest CPUBackend).trace s ops)[1]?.map (·.2.isOk) =
        some false := by decide +kernel
    rcases List.mem_cons.mp hmem with hsecond | hmem
    · simp only [ops, Machine.trace_cons, List.getElem?_cons_succ, List.getElem?_cons_zero,
        ← hsecond] at hraised
      cases hraised
    · cases hmem

end LlmCache.Engine.Provenance
