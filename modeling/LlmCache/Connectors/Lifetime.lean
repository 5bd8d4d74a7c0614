import LlmCache.Connectors.Placement
import LlmCache.Connectors.Sglang

/-!
# Asking about a cache while it expires

Both connectors ask whether a cache exists and then look it up, and the clock is
read anew each time.  What was alive for the first reading may have expired for
a later one.
-/

namespace LlmCache.Connectors.Lifetime

open Errors Lib Payload LlmCache.Types Store Engine ExplicitKVCache Descriptors Chunks Prefix
  Transfer Vllm Sglang Placement

variable {σ : Type} [StorageBackend σ] {blake2b : List UInt8 → String}

theorem isExpired_mono {d : CacheDescriptor} {clock clock' : Time} (hle : clock ≤ clock')
    (h : d.isExpired none clock' = false) : d.isExpired none clock = false := by
  unfold CacheDescriptor.isExpired at h ⊢
  cases hexpiry : d.expiresAt with
  | none => rfl
  | some expiry =>
      rw [hexpiry] at h
      exact decide_eq_false fun hreached => of_decide_eq_false h (hreached.mono hle)

/-! ## What the prompt matches -/

theorem chunkSize_pos_of_reaches {start e : ExplicitKVCache σ} (hempty : start.descriptors = ∅)
    (hreach : (ExplicitKVCache.machine blake2b σ).Reaches start e) {cid : String}
    {d : CacheDescriptor} (hd : e.descriptors.lookup cid = some d) : 0 < d.chunkSize := by
  obtain ⟨ops, rfl⟩ := hreach
  have hinv : Described blake2b start.chunkSize _ _ := described_run start hempty ops
  obtain ⟨source, _, hdesc, _⟩ := hinv.descriptors cid d hd
  exact hdesc.chunkSize_pos

/-! ## Existence and lookup -/

omit [StorageBackend σ] in
theorem expired_of_not_live {e : ExplicitKVCache σ} {cid : String} {clock : Time}
    (h : ¬∃ d, e.descriptors.lookup cid = some d ∧ d.isExpired none clock = false) :
    ∀ d, e.descriptors.lookup cid = some d → d.isExpired none clock = true := by
  intro d hd
  by_contra hclock
  exact h ⟨d, hd, Bool.eq_false_of_not_eq_true hclock⟩

theorem exists_of_absent {e : ExplicitKVCache σ} {cid : String} {clock : Time}
    (h : ∀ d, e.descriptors.lookup cid = some d → d.isExpired none clock = true) :
    (e.exists' cid clock).1 = false := by
  unfold exists' liveDescriptor
  cases hd : e.descriptors.lookup cid with
  | none => rfl
  | some d => simp [h d hd]

theorem lookup_of_expired {e : ExplicitKVCache σ} {cid : String} {d : CacheDescriptor}
    (hd : e.descriptors.lookup cid = some d) {clock : Time}
    (hexpired : d.isExpired none clock = true) (request : Option (List Int)) (stamp : Time) :
    (e.lookup blake2b cid request clock stamp).1 = .error (.cacheExpired cid) := by
  simp [ExplicitKVCache.lookup, liveDescriptor, hd, hexpired]

theorem load_of_expired {e : ExplicitKVCache σ} {cid : String} {d : CacheDescriptor}
    (hd : e.descriptors.lookup cid = some d) {clock : Time}
    (hexpired : d.isExpired none clock = true) (count : Option Int) (worker : Int) :
    (e.load cid count worker clock).1 = .error (.cacheExpired cid) := by
  simp [ExplicitKVCache.load, liveDescriptor, hd, hexpired]

/-- The cache that is asked for is alive for the last reading if it is for the
first one. -/
def StaysLive (e : ExplicitKVCache σ) (cid : String) (first last : Time) : Prop :=
  ∀ d, e.descriptors.lookup cid = some d → d.isExpired none first = false →
    d.isExpired none last = false

theorem matched_ok_iff {start : ExplicitKVCache σ} (hempty : start.descriptors = ∅)
    {c : ExplicitLMCacheConnector σ}
    (hreach : (ExplicitKVCache.machine blake2b σ).Reaches start c.engine) {request : Request}
    (hfit : Fit (promptTokens request)) (computed : Int) (clock clock' stamp : Time) :
    (∃ answer, (c.getNumNewMatchedTokens blake2b request computed clock clock' stamp).1 =
        .ok answer) ↔
      ∀ cid, namedCache request.kvTransferParams = some cid →
        StaysLive c.engine cid clock clock' := by
  unfold ExplicitLMCacheConnector.getNumNewMatchedTokens
  cases hcid : namedCache request.kvTransferParams with
  | none => exact iff_of_true ⟨_, rfl⟩ (fun cid h => by cases h)
  | some cid =>
      simp only [Option.some.injEq, forall_eq']
      by_cases hlive : ∃ d, c.engine.descriptors.lookup cid = some d ∧
          d.isExpired none clock = false
      · obtain ⟨d, hd, hclock⟩ := hlive
        rw [exists_of_live hd hclock]
        simp only [Bool.not_true, Bool.false_eq_true, if_false]
        have hstays : StaysLive c.engine cid clock clock' ↔ d.isExpired none clock' = false := by
          constructor
          · exact fun h => h d hd hclock
          · intro h d' hd' _
            obtain rfl := Option.some.inj (hd.symm.trans hd')
            exact h
        rw [hstays]
        cases hclock' : d.isExpired none clock' with
        | true =>
            rw [lookup_of_expired hd hclock']
            apply iff_of_false
            · rintro ⟨answer, h⟩
              cases h
            · exact Bool.noConfusion
        | false =>
            have hrequest : ∀ tokens ∈ some (promptTokens request), Fit tokens :=
              fun tokens h => Option.some.inj h ▸ hfit
            obtain ⟨matched, _, hmatched⟩ := matchedChunks_of_fit blake2b
              (chunkSize_pos_of_reaches hempty hreach hd) hrequest
            rw [lookup_of_live hd hclock' hmatched]
            exact iff_of_true ⟨_, rfl⟩ rfl
      · have hgone := expired_of_not_live hlive
        rw [exists_of_absent hgone]
        refine iff_of_true ⟨_, rfl⟩ ?_
        intro d hd hclock
        rw [hgone d hd] at hclock
        cases hclock

/-! ## Retrieving -/

/-- The errors that say that a cache is absent or has expired. -/
def AboutLifetime : Raised → Prop
  | .cacheNotFound _ | .cacheExpired _ => True
  | _ => False

/-- Reading an object of a backend raises no error of the engine's about
lifetimes: a backend knows of none. -/
def KnowsNoLifetimes (σ : Type) [StorageBackend σ] : Prop :=
  ∀ (store : σ) (key : ChunkKey) (err : Raised), (KeyedStore.get store key).1 = .error err →
    ¬AboutLifetime err

/-- The keys, read one after another, all yield an object. -/
def Readable (store : σ) : List ChunkKey → Prop
  | [] => True
  | key :: rest =>
      (∃ payload, (KeyedStore.get store key).1 = .ok (some payload)) ∧
        Readable (KeyedStore.get store key).2 rest

theorem loadLoop_ok_iff_readable {store : σ} {cid : String} {worker : Int} {indexes : List Nat} :
    (∃ payloads, (loadLoop cid worker indexes store).1 = .ok payloads) ↔
      Readable store (indexes.map fun index : Nat => ⟨cid, index, worker⟩) := by
  induction indexes generalizing store with
  | nil => exact iff_of_true ⟨[], rfl⟩ trivial
  | cons index rest ih =>
      simp only [loadLoop, List.map_cons, Readable, ← ih]
      cases (KeyedStore.get store ⟨cid, index, worker⟩).1 with
      | error err => simp
      | ok obj =>
          cases obj with
          | none => simp
          | some payload =>
              cases (loadLoop cid worker rest
                (KeyedStore.get store ⟨cid, index, worker⟩).2).1 with
              | error err => simp [Except.map]
              | ok payloads => simp [Except.map]

theorem loadLoop_error (hknows : KnowsNoLifetimes σ) {store : σ} {cid : String} {worker : Int}
    {indexes : List Nat} {err : Raised}
    (h : (loadLoop cid worker indexes store).1 = .error err) : ¬AboutLifetime err := by
  induction indexes generalizing store with
  | nil => cases h
  | cons index rest ih =>
      simp only [loadLoop] at h
      cases hobj : (KeyedStore.get store ⟨cid, index, worker⟩).1 with
      | error err' =>
          rw [hobj] at h
          obtain rfl : err' = err := Except.error.inj h
          exact hknows store _ _ hobj
      | ok obj =>
          rw [hobj] at h
          cases obj with
          | none =>
              obtain rfl : Raised.cacheMismatch cid index worker = err := Except.error.inj h
              exact id
          | some payload =>
              cases hrest : (loadLoop cid worker rest
                  (KeyedStore.get store ⟨cid, index, worker⟩).2).1 with
              | ok payloads =>
                  simp only [hrest] at h
                  cases h
              | error err' =>
                  simp only [hrest] at h
                  obtain rfl : err' = err := Except.error.inj h
                  exact ih hrest

theorem readable_iff_resident {store : CPUBackend} {keys : List ChunkKey} :
    Readable store keys ↔ ∀ key ∈ keys, (store.resident key).isSome := by
  induction keys generalizing store with
  | nil => simp [Readable]
  | cons key rest ih =>
      have hread : KeyedStore.get store key = (.ok (store.get key).1, (store.get key).2) := rfl
      rw [Readable, hread, ih]
      simp [← Option.isSome_iff_exists]

section Retrieve

variable {c : SGLangExplicitCache σ} {cid : String}

/-- There is a paged buffer, and its chunks are made of whole blocks. -/
def Loadable (c : SGLangExplicitCache σ) : Prop :=
  ∃ t, c.transfer = some t ∧ t.blockSize ∣ t.chunkSize

/-- If the cache is live, its chunks, those of each of its workers, can be read in
any order. -/
def ChunksStored (e : ExplicitKVCache σ) (cid : String) (clock : Time) : Prop :=
  ∀ d, e.descriptors.lookup cid = some d → d.isExpired none clock = false →
    ∀ keys, (∀ key ∈ keys, key ∈ chunkKeys cid d) → Readable e.store keys

/-- A retrieve does not fail because of the lifetime of its cache, and returns a
count where nothing else is in the way, zero for a cache that is absent or has
expired. -/
structure Answered (c : SGLangExplicitCache σ) (cid : String) (clock : Time)
    (outcome : Except Raised Nat) : Prop where
  unfailing : ∀ err, outcome = .error err → ¬AboutLifetime err
  count : Loadable c → ChunksStored c.engine cid clock → ∃ n, outcome = .ok n ∧
    ((∀ d, c.engine.descriptors.lookup cid = some d → d.isExpired none clock = true) → n = 0)

/-- The condition on a retrieve: with a paged buffer, what is alive for the first
reading is so for the last, and where the chunks are stored, those that match
can be read for worker 0. -/
def InTime (blake2b : List UInt8 → String) (c : SGLangExplicitCache σ) (cid : String)
    (request : Option (List Int)) (first last : Time) : Prop :=
  c.transfer.isSome → StaysLive c.engine cid first last ∧
    (Loadable c → ChunksStored c.engine cid first →
      ∀ d matched, c.engine.descriptors.lookup cid = some d → d.isExpired none first = false →
        matchedChunks blake2b d request = .ok matched →
        Readable c.engine.store ((List.range matched).map fun index : Nat => ⟨cid, index, 0⟩))

/-- A retrieve of a cache that is alive throughout: it loads what matches. -/
theorem retrieve_of_live {t : DictKVTransfer} (ht : c.transfer = some t) {d : CacheDescriptor}
    (hd : c.engine.descriptors.lookup cid = some d) {clock clock' stamp clock'' : Time}
    (hclock : d.isExpired none clock = false) (hclock' : d.isExpired none clock' = false)
    (hclock'' : d.isExpired none clock'' = false) {request : Option (List Int)} {matched : Nat}
    (hle : matched ≤ d.numChunks) (hmatched : matchedChunks blake2b d request = .ok matched)
    (blockIds : List Int) :
    ∃ n : Nat, (c.retrieve blake2b cid blockIds request clock clock' stamp clock'').1 =
      (loadLoop cid 0 (List.range matched) c.engine.store).1.bind fun payloads =>
        (t.loadInto blockIds payloads).1.map fun _ => n := by
  let n := if matched = d.numChunks then d.numTokens else matched * d.chunkSize
  obtain ⟨e, hlooked, hread⟩ : ∃ e, c.engine.lookup blake2b cid request clock' stamp =
      (.ok ⟨cid, n, matched, decide (matched = d.numChunks)⟩, e) ∧
        (e.load cid (some matched) 0 clock'').1 =
          (loadLoop cid 0 (List.range matched) c.engine.store).1 := by
    let d₁ : CacheDescriptor := { d with hits := d.hits + 1, lastUsedAt := some stamp }
    have hlive : d₁.isExpired none clock'' = false := hclock''
    exact ⟨_, lookup_of_live hd hclock' hmatched stamp,
      load_of_live (lookup_publish_self c.engine cid d₁) hlive hle 0⟩
  refine ⟨n, ?_⟩
  unfold SGLangExplicitCache.retrieve
  simp only [ht, exists_of_live hd hclock, Bool.not_true, Bool.false_eq_true, if_false, hlooked,
    hread]
  cases (loadLoop cid 0 (List.range matched) c.engine.store).1 with
  | error err => rfl
  | ok payloads => rfl

theorem retrieve_of_expired {t : DictKVTransfer} (ht : c.transfer = some t)
    {start : ExplicitKVCache σ} (hempty : start.descriptors = ∅)
    (hreach : (ExplicitKVCache.machine blake2b σ).Reaches start c.engine)
    {request : Option (List Int)} (hfit : ∀ tokens ∈ request, Fit tokens) {d : CacheDescriptor}
    (hd : c.engine.descriptors.lookup cid = some d) {clock clock'' : Time}
    (hclock : d.isExpired none clock = false) (hclock'' : d.isExpired none clock'' = true)
    (blockIds : List Int) (clock' stamp : Time) :
    (c.retrieve blake2b cid blockIds request clock clock' stamp clock'').1 =
      .error (.cacheExpired cid) := by
  unfold SGLangExplicitCache.retrieve
  simp only [ht, exists_of_live hd hclock, Bool.not_true, Bool.false_eq_true, if_false]
  cases hclock' : d.isExpired none clock' with
  | true => rw [lookup_of_expired hd hclock']
  | false =>
      obtain ⟨matched, _, hmatched⟩ := matchedChunks_of_fit blake2b
        (chunkSize_pos_of_reaches hempty hreach hd) hfit
      let d₁ : CacheDescriptor := { d with hits := d.hits + 1, lastUsedAt := some stamp }
      have hexpired : d₁.isExpired none clock'' = true := hclock''
      obtain ⟨e, hlooked, hread⟩ : ∃ e : ExplicitKVCache σ,
          c.engine.lookup blake2b cid request clock' stamp =
            (.ok ⟨cid, if matched = d.numChunks then d.numTokens else matched * d.chunkSize,
              matched, decide (matched = d.numChunks)⟩, e) ∧
          (e.load cid (some matched) 0 clock'').1 = .error (.cacheExpired cid) :=
        ⟨_, lookup_of_live hd hclock' hmatched stamp,
          load_of_expired (lookup_publish_self c.engine cid d₁) hexpired _ _⟩
      simp only [hlooked, hread]

theorem answered_error {clock : Time} {err : Raised} (hother : ¬AboutLifetime err)
    (hblocked : Loadable c → ¬ChunksStored c.engine cid clock) :
    Answered c cid clock (.error err) where
  unfailing _ h := Except.error.inj h ▸ hother
  count hload hstored := absurd hstored (hblocked hload)

theorem answered_ok {clock : Time} (n : Nat)
    (hzero : (∀ d, c.engine.descriptors.lookup cid = some d → d.isExpired none clock = true) →
      n = 0) : Answered c cid clock (.ok n) where
  unfailing _ h := by cases h
  count _ _ := ⟨n, rfl, hzero⟩

/-- What is answered for a live cache depends on the chunks that its load reads. -/
theorem answered_loop_iff (hknows : KnowsNoLifetimes σ) {t : DictKVTransfer}
    (ht : c.transfer = some t) {d : CacheDescriptor}
    (hd : c.engine.descriptors.lookup cid = some d) {clock : Time}
    (hclock : d.isExpired none clock = false) (blockIds : List Int) (n : Nat)
    {loaded : Except Raised (List KVPayload)} {indexes : List Nat} {store : σ}
    (hloaded : (loadLoop cid 0 indexes store).1 = loaded) :
    Answered c cid clock (loaded.bind fun payloads =>
        (t.loadInto blockIds payloads).1.map fun _ => n) ↔
      (Loadable c → ChunksStored c.engine cid clock → ∃ payloads, loaded = .ok payloads) := by
  cases loaded with
  | error err =>
      constructor
      · intro hanswered hload hstored
        obtain ⟨_, hok, _⟩ := hanswered.count hload hstored
        cases hok
      · intro hblocked
        apply answered_error (loadLoop_error hknows hloaded)
        intro hload hstored
        obtain ⟨_, hok⟩ := hblocked hload hstored
        cases hok
  | ok payloads =>
      apply iff_of_true _ fun _ _ => ⟨payloads, rfl⟩
      by_cases hdvd : t.blockSize ∣ t.chunkSize
      · have hok := DictKVTransfer.loadInto_fst_of_dvd hdvd blockIds payloads
        simp only [Except.bind, hok, Except.map]
        apply answered_ok
        intro hgone
        rw [hgone d hd] at hclock
        cases hclock
      · have hraises : (t.loadInto blockIds payloads).1 =
            .error (.valueError "chunk_size must be a multiple of block_size") := by
          have hmod : t.chunkSize % t.blockSize ≠ 0 := fun h => hdvd (Nat.dvd_of_mod_eq_zero h)
          simp only [DictKVTransfer.loadInto, DictKVTransfer.blocksPerChunk, if_pos hmod]
        simp only [Except.bind, hraises, Except.map]
        apply answered_error id
        rintro ⟨t', ht', hdvd'⟩
        rw [ht] at ht'
        exact absurd (Option.some.inj ht' ▸ hdvd') hdvd

theorem answered_iff (hknows : KnowsNoLifetimes σ) {start : ExplicitKVCache σ}
    (hempty : start.descriptors = ∅)
    (hreach : (ExplicitKVCache.machine blake2b σ).Reaches start c.engine)
    {request : Option (List Int)} (hfit : ∀ tokens ∈ request, Fit tokens) (blockIds : List Int)
    {clock clock' stamp clock'' : Time} (hle : clock' ≤ clock'') :
    Answered c cid clock
        (c.retrieve blake2b cid blockIds request clock clock' stamp clock'').1 ↔
      InTime blake2b c cid request clock clock'' := by
  cases ht : c.transfer with
  | none =>
      have hblocked : ¬Loadable c := by
        rintro ⟨t, ht', _⟩
        rw [ht] at ht'
        cases ht'
      unfold SGLangExplicitCache.retrieve InTime
      simp only [ht]
      apply iff_of_true
      · exact answered_error id fun hload => absurd hload hblocked
      · exact fun h => by cases h
  | some t =>
      by_cases hlive : ∃ d, c.engine.descriptors.lookup cid = some d ∧
          d.isExpired none clock = false
      · obtain ⟨d, hd, hclock⟩ := hlive
        have hself : ∀ d', c.engine.descriptors.lookup cid = some d' → d' = d := fun d' hd' =>
          Option.some.inj (hd'.symm.trans hd)
        cases hclock'' : d.isExpired none clock'' with
        | true =>
            -- one of the two later readings finds the cache expired
            have hraises : (c.retrieve blake2b cid blockIds request clock clock' stamp
                clock'').1 = .error (.cacheExpired cid) :=
              retrieve_of_expired ht hempty hreach hfit hd hclock hclock'' blockIds clock' stamp
            rw [hraises]
            apply iff_of_false
            · intro hanswered
              exact hanswered.unfailing _ rfl trivial
            · intro hintime
              have hfalse := (hintime (ht ▸ rfl)).1 d hd hclock
              rw [hclock''] at hfalse
              cases hfalse
        | false =>
            obtain ⟨matched, hbound, hmatched⟩ := matchedChunks_of_fit blake2b
              (chunkSize_pos_of_reaches hempty hreach hd) hfit
            obtain ⟨n, hretrieve⟩ := retrieve_of_live ht hd hclock (isExpired_mono hle hclock'')
              hclock'' hbound hmatched blockIds
            rw [hretrieve, answered_loop_iff hknows ht hd hclock blockIds n rfl,
              loadLoop_ok_iff_readable]
            constructor
            · intro hreadable _
              constructor
              · intro d' hd' _
                rw [hself d' hd']
                exact hclock''
              · intro hload hstored d' matched' hd' _ hmatched'
                rw [hself d' hd', hmatched] at hmatched'
                rw [← Except.ok.inj hmatched']
                exact hreadable hload hstored
            · intro hintime hload hstored
              exact (hintime (ht ▸ rfl)).2 hload hstored d matched hd hclock hmatched
      · have hgone := expired_of_not_live hlive
        have hzero : (c.retrieve blake2b cid blockIds request clock clock' stamp clock'').1 =
            .ok 0 := by
          unfold SGLangExplicitCache.retrieve
          simp only [ht, exists_of_absent hgone, Bool.not_false, if_true]
        rw [hzero]
        apply iff_of_true
        · exact answered_ok 0 fun _ => rfl
        · intro _
          exact ⟨fun d hd hclock => absurd ⟨d, hd, hclock⟩ hlive,
            fun _ _ d _ hd hclock => absurd ⟨d, hd, hclock⟩ hlive⟩

end Retrieve

/-! ## Both connectors -/

/-- Over readings of the clock that do not decrease, both connectors answer
exactly when the cache does not expire between the first reading and the last,
and the adapter when the chunks it is to load are those that are stored. -/
theorem answers_iff {start e : ExplicitKVCache σ} (hempty : start.descriptors = ∅)
    (hreach : (ExplicitKVCache.machine blake2b σ).Reaches start e)
    {clock clock' stamp clock'' : Time} (_ : clock ≤ clock') (hstamp : clock' ≤ stamp)
    (hload : stamp ≤ clock'') :
    (∀ (c : ExplicitLMCacheConnector σ) (request : Request) (computed : Int), c.engine = e →
      Fit (promptTokens request) →
      ((∃ answer, (c.getNumNewMatchedTokens blake2b request computed clock clock' stamp).1 =
          .ok answer) ↔
        ∀ cid, namedCache request.kvTransferParams = some cid → StaysLive e cid clock clock')) ∧
    (KnowsNoLifetimes σ → ∀ (c : SGLangExplicitCache σ) (cid : String) (blockIds : List Int)
      (request : Option (List Int)), c.engine = e → (∀ tokens ∈ request, Fit tokens) →
      (Answered c cid clock
          (c.retrieve blake2b cid blockIds request clock clock' stamp clock'').1 ↔
        InTime blake2b c cid request clock clock'')) := by
  constructor
  · rintro c request computed rfl hfit
    exact matched_ok_iff hempty hreach hfit computed clock clock' stamp
  · rintro hknows c cid blockIds request rfl hfit
    exact answered_iff hknows hempty hreach hfit blockIds (hstamp.trans hload)

theorem cpu_knowsNoLifetimes : KnowsNoLifetimes CPUBackend := by
  intro store key err h
  cases h

def freshEngine : ExplicitKVCache CPUBackend :=
  ⟨{}, 2, Nat.two_pos, none, ∅⟩

/-- Two tokens registered at zero, for five seconds. -/
def briefly : ExplicitKVCache CPUBackend :=
  (ExplicitKVCache.machine sampleDigest CPUBackend).exec freshEngine
    [.register ⟨[1, 2], .sequence [.ofBytes [7]], some "kb", some 5, false, none⟩ "new" 0]

def brieflyScheduled : ExplicitLMCacheConnector CPUBackend where
  engine := briefly
  transfer := some { blockSize := 2, blockSize_pos := Nat.two_pos, chunkSize := 2 }

def brieflyRetrieved : SGLangExplicitCache CPUBackend where
  engine := briefly
  transfer := some { blockSize := 2, blockSize_pos := Nat.two_pos, chunkSize := 2 }

def briefRequest : Request where
  requestId := some "r"
  promptTokenIds := some [1, 2]
  kvTransferParams := { cacheId := some "kb" }

theorem reaches_briefly :
    (ExplicitKVCache.machine sampleDigest CPUBackend).Reaches freshEngine briefly :=
  ⟨_, rfl⟩

theorem fit_briefRequest : Fit (promptTokens briefRequest) := by
  intro token htoken
  have hcases : token = 1 ∨ token = 2 := by simpa [promptTokens, briefRequest] using htoken
  omega

theorem chunksStored_briefly (clock : Time) : ChunksStored briefly "kb" clock := by
  intro d hd _ keys hkeys
  rw [readable_iff_resident]
  have hchunks : (briefly.descriptors.lookup "kb").map (chunkKeys "kb") = some [⟨"kb", 0, 0⟩] := by
    decide +kernel
  rw [hd] at hchunks
  intro key hkey
  have hone : key = ⟨"kb", 0, 0⟩ := by
    apply List.mem_singleton.mp
    rw [← Option.some.inj hchunks]
    exact hkeys key hkey
  rw [hone]
  decide +kernel

theorem answers_iff_briefly :
    ((∃ answer, (brieflyScheduled.getNumNewMatchedTokens sampleDigest briefRequest 0 3 4 4).1 =
        .ok answer) ↔
      ∀ cid, namedCache briefRequest.kvTransferParams = some cid → StaysLive briefly cid 3 4) ∧
    (Answered brieflyRetrieved "kb" 3
        (brieflyRetrieved.retrieve sampleDigest "kb" [0] (some [1, 2]) 3 4 4 4).1 ↔
      InTime sampleDigest brieflyRetrieved "kb" (some [1, 2]) 3 4) := by
  have hfirst : (3 : Time) ≤ 4 := by decide
  obtain ⟨hscheduled, hretrieved⟩ :=
    answers_iff rfl reaches_briefly hfirst (le_refl (4 : Time)) (le_refl (4 : Time))
  exact ⟨hscheduled brieflyScheduled briefRequest 0 rfl fit_briefRequest,
    hretrieved cpu_knowsNoLifetimes brieflyRetrieved "kb" [0] (some [1, 2]) rfl
      fun tokens h => Option.some.inj h ▸ fit_briefRequest⟩

/-- The cache is there at four and has expired at five. -/
theorem expires_between_readings :
    (brieflyScheduled.getNumNewMatchedTokens sampleDigest briefRequest 0 4 5 5).1 =
        .error (.cacheExpired "kb") ∧
      (brieflyRetrieved.retrieve sampleDigest "kb" [0] (some [1, 2]) 4 4 4 5).1 =
        .error (.cacheExpired "kb") ∧
      (ExplicitKVCache.machine sampleDigest CPUBackend).Reaches freshEngine briefly ∧
      freshEngine.descriptors = ∅ ∧ Fit (promptTokens briefRequest) ∧
      Loadable brieflyRetrieved ∧ ChunksStored briefly "kb" 4 :=
  ⟨by decide +kernel, by decide +kernel, reaches_briefly, rfl, fit_briefRequest,
    ⟨_, rfl, dvd_refl 2⟩, chunksStored_briefly 4⟩

end LlmCache.Connectors.Lifetime
