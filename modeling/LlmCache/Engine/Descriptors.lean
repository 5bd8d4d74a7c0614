import LlmCache.Engine

/-!
# Where descriptors come from

A descriptor is published by `register` or `commit`, is edited in place by the
calls that count hits, move the expiry or flip the pin flag, and disappears
when its cache is deleted.  Every call is one of these, so a descriptor always
describes what the latest publication of its id was given.
-/

namespace LlmCache.Engine.Descriptors

open Errors Lib Payload LlmCache.Types Store ExplicitKVCache

variable {σ : Type} [StorageBackend σ] {blake2b : List UInt8 → String}

/-! ## Publications -/

/-- The arguments of a call that publishes a descriptor. -/
inductive Source where
  | registration (r : Registration)
  | commit (c : Commit)

namespace Source

def tokenIds : Source → List Int
  | .registration r => r.tokenIds
  | .commit c => c.tokenIds

/-- `tuple(sorted(...))` of the workers. -/
def workerIds : Source → List Int
  | .registration r => (normalizePayloads r.payloads).keys.insertionSort (· ≤ ·)
  | .commit c => c.workerIds.insertionSort (· ≤ ·)

end Source

/-- What a call publishes, and under which id, when it returns. -/
def publication : EngineOp × Except Raised EngineReply → Option (String × Source)
  | (.register r newId _, .ok _) => some (resolveId r.cacheId newId, .registration r)
  | (.commit c _, .ok _) => some (c.cacheId, .commit c)
  | _ => none

/-- The latest publication of an id in the history of a run. -/
def latest (past : List (EngineOp × Except Raised EngineReply)) (cid : String) :
    Option Source :=
  past.foldl (fun last entry =>
    match publication entry with
    | some (id, source) => if id = cid then some source else last
    | none => last) none

theorem latest_eq_lastOf (past : List (EngineOp × Except Raised EngineReply)) (cid : String) :
    latest past cid = Machine.lastOf publication past cid := by
  unfold latest Machine.lastOf
  congr 1
  funext last entry
  cases publication entry <;> rfl

theorem latest_snoc_of_ne {past : List (EngineOp × Except Raised EngineReply)}
    {entry : EngineOp × Except Raised EngineReply} {cid : String}
    (h : ∀ source, publication entry ≠ some (cid, source)) :
    latest (past ++ [entry]) cid = latest past cid := by
  rw [latest_eq_lastOf, latest_eq_lastOf, Machine.lastOf_snoc_of_ne h]

theorem latest_snoc_self {past : List (EngineOp × Except Raised EngineReply)}
    {entry : EngineOp × Except Raised EngineReply} {cid : String} {source : Source}
    (h : publication entry = some (cid, source)) :
    latest (past ++ [entry]) cid = some source := by
  rw [latest_eq_lastOf, Machine.lastOf_snoc_self h]

/-! ## Descriptors and what they describe -/

/-- The descriptor records the tokens and workers of its publication. -/
structure Describes (blake2b : List UInt8 → String) (d : CacheDescriptor) (source : Source) :
    Prop where
  chunkSize_pos : 0 < d.chunkSize
  numTokens : d.numTokens = source.tokenIds.length
  workerIds : d.workerIds = source.workerIds
  digests : fingerprints blake2b (tokenSlices source.tokenIds d.chunkSize) =
    .ok d.chunkFingerprints

/-- Two descriptors of the same publication. -/
structure SameCache (d d' : CacheDescriptor) : Prop where
  cacheId : d'.cacheId = d.cacheId
  numTokens : d'.numTokens = d.numTokens
  chunkSize : d'.chunkSize = d.chunkSize
  workerIds : d'.workerIds = d.workerIds
  chunkFingerprints : d'.chunkFingerprints = d.chunkFingerprints

theorem SameCache.refl (d : CacheDescriptor) : SameCache d d := ⟨rfl, rfl, rfl, rfl, rfl⟩

theorem SameCache.numChunks {d d' : CacheDescriptor} (h : SameCache d d') :
    d'.numChunks = d.numChunks :=
  congrArg List.length h.chunkFingerprints

theorem Describes.of_same {d d' : CacheDescriptor} {source : Source}
    (h : Describes blake2b d source) (hsame : SameCache d d') : Describes blake2b d' source where
  chunkSize_pos := by rw [hsame.chunkSize]; exact h.chunkSize_pos
  numTokens := by rw [hsame.numTokens, h.numTokens]
  workerIds := by rw [hsame.workerIds, h.workerIds]
  digests := by rw [hsame.chunkSize, hsame.chunkFingerprints, h.digests]

theorem fingerprints_forall₂ {chunks : List (List Int)} {digests : List String}
    (h : fingerprints blake2b chunks = .ok digests) :
    List.Forall₂ (fun chunk digest => tokenFingerprint blake2b chunk = .ok digest)
      chunks digests :=
  collect_ok_iff.mp h

theorem length_of_fingerprints {chunks : List (List Int)} {digests : List String}
    (h : fingerprints blake2b chunks = .ok digests) : digests.length = chunks.length :=
  (fingerprints_forall₂ h).length_eq.symm

theorem Describes.numChunks {d : CacheDescriptor} {source : Source}
    (h : Describes blake2b d source) :
    d.numChunks = (tokenSlices source.tokenIds d.chunkSize).length :=
  length_of_fingerprints h.digests

section Build

variable {α : Type} {fingerprint : List α → Except Raised String} {s : ExplicitKVCache σ}
  {cid : String} {tokenChunks : List (List α)} {numLayers : Int} {workerIds : List Int}
  {ttl : Option Ttl} {pin : Bool} {name : Option String} {now : Time} {d : CacheDescriptor}

omit [StorageBackend σ] in
/-- What raises is the sum of the reading and the lifetime, or a token. -/
theorem raised_of_build {err : Raised}
    (h : buildDescriptor fingerprint s cid tokenChunks numLayers workerIds ttl pin name now =
      .error err) :
    Ttl.expiry now (ttl.or s.defaultTtl) = .error err ∨
      collect fingerprint tokenChunks = .error err := by
  unfold buildDescriptor at h
  split at h
  · cases h
  · rename_i hexpiry
    exact .inl (by rw [hexpiry, Except.error.inj h])
  · rename_i hdigests
    exact .inr (by rw [hdigests, Except.error.inj h])

omit [StorageBackend σ] in
theorem build_ok_iff :
    buildDescriptor fingerprint s cid tokenChunks numLayers workerIds ttl pin name now = .ok d ↔
      ∃ expiresAt digests, Ttl.expiry now (ttl.or s.defaultTtl) = .ok expiresAt ∧
        collect fingerprint tokenChunks = .ok digests ∧
        { cacheId := cid
          numTokens := (tokenChunks.map List.length).sum
          chunkSize := s.chunkSize
          numLayers := numLayers
          workerIds := workerIds
          createdAt := now
          expiresAt := expiresAt
          pinned := pin
          chunkFingerprints := digests
          name := name } = d := by
  unfold buildDescriptor
  cases Ttl.expiry now (ttl.or s.defaultTtl) with
  | error err => simp
  | ok expiresAt => cases collect fingerprint tokenChunks <;> simp

omit [StorageBackend σ] in
theorem build_of_ok {expiresAt : Option Ticks} {digests : List String}
    (hexpiry : Ttl.expiry now (ttl.or s.defaultTtl) = .ok expiresAt)
    (hdigests : collect fingerprint tokenChunks = .ok digests) :
    buildDescriptor fingerprint s cid tokenChunks numLayers workerIds ttl pin name now =
      .ok { cacheId := cid
            numTokens := (tokenChunks.map List.length).sum
            chunkSize := s.chunkSize
            numLayers := numLayers
            workerIds := workerIds
            createdAt := now
            expiresAt := expiresAt
            pinned := pin
            chunkFingerprints := digests
            name := name } :=
  build_ok_iff.mpr ⟨expiresAt, digests, hexpiry, hdigests, rfl⟩

omit [StorageBackend σ] in
theorem describes_of_build (source : Source)
    (h : buildDescriptor (tokenFingerprint blake2b) s cid
      (tokenSlices source.tokenIds s.chunkSize) numLayers source.workerIds ttl pin name now =
        .ok d) :
    Describes blake2b d source ∧ d.chunkSize = s.chunkSize ∧ d.cacheId = cid ∧ d.pinned = pin ∧
      Ttl.expiry now (ttl.or s.defaultTtl) = .ok d.expiresAt := by
  obtain ⟨expiresAt, digests, hexpiry, hdigests, rfl⟩ := build_ok_iff.mp h
  refine ⟨⟨s.chunkSize_pos, ?_, rfl, hdigests⟩, rfl, rfl, rfl, hexpiry⟩
  exact sum_length_tokenSlices _ s.chunkSize_pos

end Build

/-! ## The functions of the engine, case by case -/

/-- The chunks a registration stores, in order. -/
def putsOf (r : Registration) (newId : String) : List (ChunkKey × KVPayload) :=
  chunkPuts (resolveId r.cacheId newId) (normalizePayloads r.payloads)

/-- The engine after a registration's puts, whether all of them or the ones up
to the first refused one. -/
def stored (s : ExplicitKVCache σ) (r : Registration) (newId : String) : ExplicitKVCache σ :=
  { s with store := (putChunks r.pin (putsOf r newId) s.store).2 }

/-- Whether `register` gets past its comparison of payload counts. -/
def countsAgree (s : ExplicitKVCache σ) (r : Registration) : Prop :=
  checkCounts (tokenSlices r.tokenIds s.chunkSize).length
    (normalizePayloads r.payloads).entries = .ok ()

/-- How `register` ends: refused for its counts, stopped by the store, stopped
by its lifetime or by a token after all chunks are stored, or with its descriptor
published. -/
inductive RegisterEnd (blake2b : List UInt8 → String) (s : ExplicitKVCache σ) (r : Registration)
    (newId : String) (now : Time) : Except Raised CacheDescriptor × ExplicitKVCache σ → Prop
  | refused {err} (hcounts : ¬countsAgree s r) : RegisterEnd blake2b s r newId now (.error err, s)
  | full {err} (hcounts : countsAgree s r)
      (hputs : (putChunks r.pin (putsOf r newId) s.store).1 = .error err) :
      RegisterEnd blake2b s r newId now (.error err, stored s r newId)
  | overflow {err} (hcounts : countsAgree s r)
      (hputs : (putChunks r.pin (putsOf r newId) s.store).1 = .ok ())
      (hbuilt : Ttl.expiry now (r.ttl.or s.defaultTtl) = .error err ∨
        fingerprints blake2b (tokenSlices r.tokenIds s.chunkSize) = .error err) :
      RegisterEnd blake2b s r newId now (.error err, stored s r newId)
  | published {d} (hcounts : countsAgree s r)
      (hputs : (putChunks r.pin (putsOf r newId) s.store).1 = .ok ())
      (hd : Describes blake2b d (.registration r)) (hsize : d.chunkSize = s.chunkSize)
      (hid : d.cacheId = resolveId r.cacheId newId) (hpinned : d.pinned = r.pin)
      (hexpires : Ttl.expiry now (r.ttl.or s.defaultTtl) = .ok d.expiresAt) :
      RegisterEnd blake2b s r newId now
        (.ok d, (stored s r newId).publish (resolveId r.cacheId newId) d)

theorem register_end (s : ExplicitKVCache σ) (r : Registration) (newId : String) (now : Time) :
    RegisterEnd blake2b s r newId now (s.register blake2b r newId now) := by
  unfold register
  rw [chunkTokenIds_of_pos _ s.chunkSize_pos]
  simp only
  cases hcounts : checkCounts (tokenSlices r.tokenIds s.chunkSize).length
      (normalizePayloads r.payloads).entries with
  | error err =>
      apply RegisterEnd.refused
      rw [countsAgree, hcounts]
      simp
  | ok _ =>
      simp only
      rw [show chunkPuts (resolveId r.cacheId newId) (normalizePayloads r.payloads) =
        putsOf r newId from rfl]
      cases hputs : (putChunks r.pin (putsOf r newId) s.store).1 with
      | error err => exact .full hcounts hputs
      | ok _ =>
          simp only
          generalize hbuild : buildDescriptor _ _ _ _ _ _ _ _ _ _ = built
          cases built with
          | error err => exact .overflow hcounts hputs (raised_of_build hbuild)
          | ok d =>
              obtain ⟨hd, hsize, hid, hpinned, hexpires⟩ :=
                describes_of_build (.registration r) hbuild
              exact .published hcounts hputs hd hsize hid hpinned hexpires

/-- The id whose liveness a call tests, and the reading it tests it with. -/
def tests : EngineOp → Option (String × Time)
  | .get cid clock | .exists cid clock | .lookup cid _ clock _ | .load cid _ _ clock
  | .extendTtl cid _ clock _ | .pin cid clock | .unpin cid clock => some (cid, clock)
  | _ => none

/-- The readings with which a call sweeps. -/
def sweeps : EngineOp → Option (Time × Time)
  | .list now again | .sweepExpired now again => some (now, again)
  | _ => none

/-- The descriptors a sweep finds expired. -/
def expired (s : ExplicitKVCache σ) (now again : Time) : List CacheDescriptor :=
  (OrderedDict.values s.descriptors).filter (·.isExpired (some now) again)

/-- A call finds the cache it names, and finds it live. -/
def FindsLive (s : ExplicitKVCache σ) (op : EngineOp) (cid : String) (d : CacheDescriptor) :
    Prop :=
  s.descriptors.lookup cid = some d ∧
    ∃ clock, tests op = some (cid, clock) ∧ d.isExpired none clock = false

/-- What a call can do to the engine. -/
inductive Change (blake2b : List UInt8 → String) (s : ExplicitKVCache σ) :
    EngineOp → Except Raised EngineReply → ExplicitKVCache σ → Prop
  | unchanged {op out} (hpublication : publication (op, out) = none) : Change blake2b s op out s
  | registered {r newId now out} (hend : RegisterEnd blake2b s r newId now out) :
      Change blake2b s (.register r newId now) (out.1.map .descriptor) out.2
  | chunkPut {cid idx payload w pin} :
      Change blake2b s (.putChunk cid idx payload w pin)
        ((KeyedStore.put s.store ⟨cid, idx, w⟩ payload pin).1.map fun _ => .done)
        { s with store := (KeyedStore.put s.store ⟨cid, idx, w⟩ payload pin).2 }
  | committed {c now d} (hd : Describes blake2b d (.commit c)) (hsize : d.chunkSize = s.chunkSize)
      (hid : d.cacheId = c.cacheId) :
      Change blake2b s (.commit c now) (.ok (.descriptor d)) (s.publish c.cacheId d)
  | deleted {op out cid d} (hd : s.descriptors.lookup cid = some d)
      (hpublication : publication (op, out) = none)
      (hwhy : op = .delete cid ∨ ∃ clock, tests op = some (cid, clock) ∧ d.isExpired none clock) :
      Change blake2b s op out (s.delete cid)
  | swept {op out now again} (hsweeps : sweeps op = some (now, again))
      (hpublication : publication (op, out) = none) :
      Change blake2b s op out ((expired s now again).foldl (fun s d => s.delete d.cacheId) s)
  | touched {op out cid d d'} (hd : FindsLive s op cid d) (hsame : SameCache d d')
      (hpublication : publication (op, out) = none) :
      Change blake2b s op out (s.publish cid d')
  | pinned {cid clock d} (hd : FindsLive s (.pin cid clock) cid d) :
      Change blake2b s (.pin cid clock) (.ok .done)
        { s.publish cid { d with pinned := true } with
          store := (chunkKeys cid d).foldl KeyedStore.pin s.store }
  | unpinned {cid clock d} (hd : FindsLive s (.unpin cid clock) cid d) :
      Change blake2b s (.unpin cid clock) (.ok .done)
        { s.publish cid { d with pinned := false } with
          store := (chunkKeys cid d).foldl KeyedStore.unpin s.store }
  | loaded {cid n w clock out idxs d} (hd : FindsLive s (.load cid n w clock) cid d) :
      Change blake2b s (.load cid n w clock) out
        { s with store := (loadLoop cid w idxs s.store).2 }

/-- How a call finds the cache it names: absent, expired, or live. -/
theorem liveDescriptor_cases (s : ExplicitKVCache σ) (cid : String) (clock : Time) :
    (s.descriptors.lookup cid = none ∧
        s.liveDescriptor cid clock = (.error (.cacheNotFound cid), s)) ∨
      ∃ d, s.descriptors.lookup cid = some d ∧
        ((d.isExpired none clock = true ∧
            s.liveDescriptor cid clock = (.error (.cacheExpired cid), s.delete cid)) ∨
          (d.isExpired none clock = false ∧ s.liveDescriptor cid clock = (.ok d, s))) := by
  unfold liveDescriptor
  cases hd : s.descriptors.lookup cid with
  | none => exact .inl ⟨rfl, rfl⟩
  | some d =>
      refine .inr ⟨d, rfl, ?_⟩
      cases hexpired : d.isExpired none clock with
      | true => exact .inl ⟨rfl, by simp [hexpired]⟩
      | false => exact .inr ⟨rfl, by simp [hexpired]⟩

theorem change_of_live {s : ExplicitKVCache σ} {op : EngineOp} {cid : String} {clock : Time}
    (htests : tests op = some (cid, clock))
    (hraise : ∀ err, (s.liveDescriptor cid clock).1 = .error err →
      ∃ out, step blake2b s op = (out, (s.liveDescriptor cid clock).2) ∧
        publication (op, out) = none)
    (hlive : ∀ d, FindsLive s op cid d → s.liveDescriptor cid clock = (.ok d, s) →
      Change blake2b s op (step blake2b s op).1 (step blake2b s op).2) :
    Change blake2b s op (step blake2b s op).1 (step blake2b s op).2 := by
  rcases liveDescriptor_cases s cid clock with ⟨_, hres⟩ | ⟨d, hd, ⟨hexp, hres⟩ | ⟨hexp, hres⟩⟩
  · obtain ⟨out, hstep, hpub⟩ := hraise (.cacheNotFound cid) (by rw [hres])
    rw [hstep, hres]
    exact .unchanged hpub
  · obtain ⟨out, hstep, hpub⟩ := hraise (.cacheExpired cid) (by rw [hres])
    rw [hstep, hres]
    exact .deleted hd hpub (.inr ⟨clock, htests, hexp⟩)
  · exact hlive d ⟨hd, clock, htests, hexp⟩ hres

theorem change_step (s : ExplicitKVCache σ) (op : EngineOp) :
    Change blake2b s op (step blake2b s op).1 (step blake2b s op).2 := by
  cases op with
  | register r newId now => exact .registered (register_end s r newId now)
  | putChunk cid idx payload w pin => exact .chunkPut
  | commit c now =>
      simp only [step, ExplicitKVCache.commit]
      rw [chunkTokenIds_of_pos _ s.chunkSize_pos]
      simp only
      generalize hbuild : buildDescriptor _ _ _ _ _ _ _ _ _ _ = built
      cases built with
      | error err => exact .unchanged rfl
      | ok d =>
          obtain ⟨hd, hsize, hid, _, _⟩ := describes_of_build (.commit c) hbuild
          exact .committed hd hsize hid
  | get cid clock =>
      refine change_of_live (show tests (.get cid clock) = some (cid, clock) from rfl) ?_ ?_
      · intro err herr
        exact ⟨.error err, by simp only [step, ExplicitKVCache.get, herr]; rfl, rfl⟩
      · intro d hd hres
        simp only [step, ExplicitKVCache.get, hres]
        exact .unchanged rfl
  | «exists» cid clock =>
      refine change_of_live (show tests (.exists cid clock) = some (cid, clock) from rfl) ?_ ?_
      · intro err herr
        exact ⟨.ok (.flag false), by simp only [step, exists', herr], rfl⟩
      · intro d hd hres
        simp only [step, exists', hres]
        exact .unchanged rfl
  | lookup cid tokens clock stamp =>
      refine change_of_live
        (show tests (.lookup cid tokens clock stamp) = some (cid, clock) from rfl) ?_ ?_
      · intro err herr
        exact ⟨.error err, by simp only [step, ExplicitKVCache.lookup, herr]; rfl, rfl⟩
      · intro d hd hres
        simp only [step, ExplicitKVCache.lookup, hres]
        cases matchedChunks blake2b d tokens with
        | error err => exact .unchanged rfl
        | ok m => exact .touched hd ⟨rfl, rfl, rfl, rfl, rfl⟩ rfl
  | load cid n w clock =>
      refine change_of_live (show tests (.load cid n w clock) = some (cid, clock) from rfl) ?_ ?_
      · intro err herr
        exact ⟨.error err, by simp only [step, ExplicitKVCache.load, herr]; rfl, rfl⟩
      · intro d hd hres
        simp only [step, ExplicitKVCache.load, hres]
        exact .loaded hd
  | delete cid =>
      simp only [step, ExplicitKVCache.delete]
      cases hd : s.descriptors.lookup cid with
      | none => exact .unchanged rfl
      | some d =>
          have hdeleted : Change blake2b s (.delete cid) (.ok .done) (s.delete cid) :=
            .deleted hd rfl (.inl rfl)
          simpa only [ExplicitKVCache.delete, hd] using hdeleted
  | extendTtl cid ttl clock stamp =>
      refine change_of_live
        (show tests (.extendTtl cid ttl clock stamp) = some (cid, clock) from rfl) ?_ ?_
      · intro err herr
        exact ⟨.error err, by simp only [step, ExplicitKVCache.extendTtl, herr]; rfl, rfl⟩
      · intro d hd hres
        simp only [step, ExplicitKVCache.extendTtl, hres]
        cases ttl.addedTo stamp with
        | error err => exact .unchanged rfl
        | ok expiresAt => exact .touched hd ⟨rfl, rfl, rfl, rfl, rfl⟩ rfl
  | pin cid clock =>
      refine change_of_live (show tests (.pin cid clock) = some (cid, clock) from rfl) ?_ ?_
      · intro err herr
        exact ⟨.error err, by simp only [step, ExplicitKVCache.pin, herr]; rfl, rfl⟩
      · intro d hd hres
        simp only [step, ExplicitKVCache.pin, hres]
        exact .pinned hd
  | unpin cid clock =>
      refine change_of_live (show tests (.unpin cid clock) = some (cid, clock) from rfl) ?_ ?_
      · intro err herr
        exact ⟨.error err, by simp only [step, ExplicitKVCache.unpin, herr]; rfl, rfl⟩
      · intro d hd hres
        simp only [step, ExplicitKVCache.unpin, hres]
        exact .unpinned hd
  | list now again => exact .swept rfl rfl
  | sweepExpired now again => exact .swept rfl rfl

/-! ## Where a descriptor comes from -/

omit [StorageBackend σ] in
@[simp] theorem lookup_publish_self (s : ExplicitKVCache σ) (cid : String) (d : CacheDescriptor) :
    (s.publish cid d).descriptors.lookup cid = some d :=
  (OrderedDict.lookup_setItem ..).trans (if_pos rfl)

omit [StorageBackend σ] in
theorem lookup_publish_other (s : ExplicitKVCache σ) {cid k : String} (d : CacheDescriptor)
    (hk : k ≠ cid) : (s.publish cid d).descriptors.lookup k = s.descriptors.lookup k :=
  (OrderedDict.lookup_setItem ..).trans (if_neg hk)

theorem lookup_delete (s : ExplicitKVCache σ) (cid k : String) :
    (s.delete cid).descriptors.lookup k =
      if k = cid then none else s.descriptors.lookup k := by
  unfold ExplicitKVCache.delete
  cases hd : s.descriptors.lookup cid with
  | none =>
      split_ifs with hk
      · rw [hk, hd]
      · rfl
  | some d => exact OrderedDict.lookup_erase s.descriptors cid k

theorem lookup_foldl_delete (ds : List CacheDescriptor) (s : ExplicitKVCache σ) (k : String) :
    (ds.foldl (fun s d => s.delete d.cacheId) s).descriptors.lookup k =
      if k ∈ ds.map CacheDescriptor.cacheId then none else s.descriptors.lookup k := by
  induction ds generalizing s with
  | nil => simp
  | cons d ds ih =>
      rw [List.foldl_cons, ih, lookup_delete, List.map_cons]
      by_cases hk : k = d.cacheId <;> simp [hk]

/-- A descriptor after a call: of a cache that was there before, or published
by the call. -/
inductive Origin (blake2b : List UInt8 → String) (s : ExplicitKVCache σ)
    (entry : EngineOp × Except Raised EngineReply) (cid : String) (d' : CacheDescriptor) : Prop
  | kept (d : CacheDescriptor) (hd : s.descriptors.lookup cid = some d) (hsame : SameCache d d')
      (hpublication : ∀ source, publication entry ≠ some (cid, source))
  | published (source : Source) (hpublication : publication entry = some (cid, source))
      (hd : Describes blake2b d' source) (hsize : d'.chunkSize = s.chunkSize)
      (hid : d'.cacheId = cid)

omit [StorageBackend σ] in
theorem origin_of_edit {s : ExplicitKVCache σ}
    {entry : EngineOp × Except Raised EngineReply} {cid k : String} {d d₁ d' : CacheDescriptor}
    (hd : s.descriptors.lookup cid = some d) (hsame : SameCache d d₁)
    (hpublication : publication entry = none)
    (h : (s.publish cid d₁).descriptors.lookup k = some d') : Origin blake2b s entry k d' := by
  simp only [publish, OrderedDict.lookup_setItem] at h
  split_ifs at h with hk
  · obtain rfl := Option.some.inj h
    exact .kept d (hk ▸ hd) hsame (by simp [hpublication])
  · exact .kept d' h (.refl d') (by simp [hpublication])

theorem origin_of_change {s s' : ExplicitKVCache σ} {op : EngineOp}
    {out : Except Raised EngineReply} (hchange : Change blake2b s op out s') {cid : String}
    {d' : CacheDescriptor} (h : s'.descriptors.lookup cid = some d') :
    Origin blake2b s (op, out) cid d' := by
  cases hchange with
  | unchanged hpub => exact .kept d' h (.refl d') (by simp [hpub])
  | registered hend =>
      cases hend with
      | refused => exact .kept d' h (.refl d') fun source hsource => by cases hsource
      | full => exact .kept d' h (.refl d') fun source hsource => by cases hsource
      | overflow => exact .kept d' h (.refl d') fun source hsource => by cases hsource
      | published hcounts hputs hd hsize hid =>
          rename_i d
          simp only [publish, OrderedDict.lookup_setItem] at h
          split_ifs at h with hk
          · obtain rfl := Option.some.inj h
            subst hk
            exact .published _ rfl hd hsize hid
          · refine .kept d' h (.refl d') fun source hsource => hk ?_
            exact (congrArg Prod.fst (Option.some.inj hsource)).symm
  | chunkPut =>
      refine .kept d' h (.refl d') fun source => ?_
      simp [publication]
  | committed hd hsize hid =>
      rename_i c now d
      simp only [publish, OrderedDict.lookup_setItem] at h
      split_ifs at h with hk
      · obtain rfl := Option.some.inj h
        subst hk
        exact .published (.commit c) rfl hd hsize hid
      · refine .kept d' h (.refl d') fun source hsource => hk ?_
        exact (congrArg Prod.fst (Option.some.inj hsource)).symm
  | deleted hd hpub =>
      rw [lookup_delete] at h
      split_ifs at h
      exact .kept d' h (.refl d') (by simp [hpub])
  | swept hsweeps hpub =>
      rw [lookup_foldl_delete] at h
      split_ifs at h
      exact .kept d' h (.refl d') (by simp [hpub])
  | touched hd hsame hpub => exact origin_of_edit hd.1 hsame hpub h
  | pinned hd =>
      rename_i cid clock d
      have hsame : SameCache d { d with pinned := true } := ⟨rfl, rfl, rfl, rfl, rfl⟩
      exact origin_of_edit hd.1 hsame rfl h
  | unpinned hd =>
      rename_i cid clock d
      have hsame : SameCache d { d with pinned := false } := ⟨rfl, rfl, rfl, rfl, rfl⟩
      exact origin_of_edit hd.1 hsame rfl h
  | loaded hd =>
      refine .kept d' h (.refl d') fun source => ?_
      simp [publication]

/-- Every descriptor describes the latest publication of its id. -/
structure Described (blake2b : List UInt8 → String) (size : Nat)
    (past : List (EngineOp × Except Raised EngineReply)) (s : ExplicitKVCache σ) : Prop where
  chunkSize : s.chunkSize = size
  descriptors : ∀ cid d, s.descriptors.lookup cid = some d →
    ∃ source, latest past cid = some source ∧ Describes blake2b d source ∧
      d.chunkSize = size ∧ d.cacheId = cid

/-- The engine is configured once and for all. -/
def SameSettings (s s' : ExplicitKVCache σ) : Prop :=
  s'.chunkSize = s.chunkSize ∧ s'.defaultTtl = s.defaultTtl

omit [StorageBackend σ] in
theorem SameSettings.refl (s : ExplicitKVCache σ) : SameSettings s s := ⟨rfl, rfl⟩

theorem sameSettings_delete (s : ExplicitKVCache σ) (cid : String) :
    SameSettings s (s.delete cid) := by
  unfold ExplicitKVCache.delete
  cases s.descriptors.lookup cid <;> exact ⟨rfl, rfl⟩

theorem sameSettings_foldl_delete (ds : List CacheDescriptor) (s : ExplicitKVCache σ) :
    SameSettings s (ds.foldl (fun s d => s.delete d.cacheId) s) := by
  induction ds generalizing s with
  | nil => exact .refl s
  | cons d ds ih =>
      have hhead := sameSettings_delete s d.cacheId
      have htail := ih (s.delete d.cacheId)
      exact ⟨htail.1.trans hhead.1, htail.2.trans hhead.2⟩

theorem sameSettings_of_change {s s' : ExplicitKVCache σ} {op : EngineOp}
    {out : Except Raised EngineReply} (hchange : Change blake2b s op out s') :
    SameSettings s s' := by
  cases hchange with
  | registered hend => cases hend <;> exact ⟨rfl, rfl⟩
  | deleted => exact sameSettings_delete s _
  | swept => exact sameSettings_foldl_delete _ s
  | unchanged => exact .refl s
  | chunkPut => exact ⟨rfl, rfl⟩
  | committed => exact ⟨rfl, rfl⟩
  | touched => exact ⟨rfl, rfl⟩
  | pinned => exact ⟨rfl, rfl⟩
  | unpinned => exact ⟨rfl, rfl⟩
  | loaded => exact ⟨rfl, rfl⟩

theorem described_step {size : Nat} {past : List (EngineOp × Except Raised EngineReply)}
    {s : ExplicitKVCache σ} (hinv : Described blake2b size past s) (op : EngineOp) :
    Described blake2b size (past ++ [(op, (step blake2b s op).1)]) (step blake2b s op).2 where
  chunkSize := (sameSettings_of_change (change_step s op)).1.trans hinv.chunkSize
  descriptors := by
    intro cid d' hd'
    cases origin_of_change (change_step s op) hd' with
    | kept d hd hsame hpub =>
        obtain ⟨source, hlatest, hdesc, hsize, hid⟩ := hinv.descriptors cid d hd
        refine ⟨source, ?_, hdesc.of_same hsame, ?_, ?_⟩
        · rw [latest_snoc_of_ne hpub, hlatest]
        · rw [hsame.chunkSize, hsize]
        · rw [hsame.cacheId, hid]
    | published source hpub hdesc hsize hid =>
        exact ⟨source, latest_snoc_self hpub, hdesc, hsize.trans hinv.chunkSize, hid⟩

/-- In every run from an engine without descriptors, each descriptor describes
the latest publication of its id. -/
theorem described_run (s : ExplicitKVCache σ) (hempty : s.descriptors = ∅)
    (ops : List EngineOp) :
    Described blake2b s.chunkSize ((machine blake2b σ).trace s ops)
      ((machine blake2b σ).exec s ops) := by
  have hstart : Described blake2b s.chunkSize [] s :=
    ⟨rfl, fun cid d hd => by simp [hempty] at hd⟩
  exact (machine blake2b σ).history_induction (I := Described blake2b s.chunkSize)
    (fun past s op hinv _ => described_step hinv op) [] hstart
    ((machine blake2b σ).stepsMeet_true s ops)

end LlmCache.Engine.Descriptors
