import LlmCache.Connectors.Placement
import LlmCache.Connectors.Sglang
import LlmCache.Engine.Unbounded

/-!
# Saving and loading through the adapters

Both adapters cut the blocks of a prompt into chunks, keep each chunk as the
concatenation of its blocks, and cut it evenly again on the way back.  Over a
lossless store the blocks come back, whichever adapter saved and whichever
loads.
-/

namespace LlmCache.Connectors.RoundTrip

open Errors Lib Payload LlmCache.Types Store Engine ExplicitKVCache Descriptors Chunks Prefix
  Unbounded Transfer Vllm Sglang Placement

open LosslessStore (view)

/-! ## The adapters over one engine and one paged buffer -/

/-- An adapter with nothing staged.  The vLLM connector may still have metadata
bound from an earlier step. -/
inductive Adapter where
  | vllm (bound : Option ExplicitConnectorMetadata)
  | sglang

/-- The engine and the paged buffer after a call, and what the call returned. -/
structure Outcome (σ : Type) (α : Type) where
  result : Except Raised α
  engine : ExplicitKVCache σ
  transfer : Option DictKVTransfer

variable {σ : Type} [StorageBackend σ]

/-- Save the prompt of a request under the cache id: `update_state_after_alloc`,
`build_connector_meta` and `wait_for_save`, or `store`.  `clock` is what
`update_state_after_alloc` reads, `now` what `commit` reads. -/
def Adapter.save (blake2b : List UInt8 → String) (engine : ExplicitKVCache σ)
    (transfer : DictKVTransfer) (cacheId : String) (request : Request) (blocks : Blocks)
    (external : Int) (clock now : Time) : Adapter → Outcome σ Unit
  | .vllm bound =>
      let c : ExplicitLMCacheConnector σ :=
        { engine := engine, transfer := some transfer, connectorMetadata := bound }
      let built := (c.updateStateAfterAlloc request blocks external clock).buildConnectorMeta
      let out := (built.2.bindConnectorMetadata built.1).waitForSave blake2b fun _ => now
      ⟨out.1, out.2.engine, out.2.transfer⟩
  | .sglang =>
      let c : SGLangExplicitCache σ := { engine := engine, transfer := some transfer }
      let params := request.kvTransferParams
      let out := c.store blake2b cacheId (promptTokens request) (extractBlockIds blocks) params.ttl
        params.pin params.name now
      ⟨out.1, out.2.engine, out.2.transfer⟩

/-- Load for a request without computed tokens: `get_num_new_matched_tokens`,
`update_state_after_alloc`, `build_connector_meta` and `start_load_kv`, or
`retrieve`.  Both report how many tokens are reused. -/
def Adapter.load (blake2b : List UInt8 → String) (engine : ExplicitKVCache σ)
    (transfer : DictKVTransfer) (cacheId : String) (request : Request) (blocks : Blocks)
    (readings : Readings) : Adapter → Outcome σ Int
  | .vllm bound =>
      let c : ExplicitLMCacheConnector σ :=
        { engine := engine, transfer := some transfer, connectorMetadata := bound }
      let asked := c.getNumNewMatchedTokens blake2b request 0 readings.found readings.looked
        readings.stamp
      match asked.1 with
      | .error err => ⟨.error err, asked.2.engine, asked.2.transfer⟩
      | .ok (external, _) =>
          let built := (asked.2.updateStateAfterAlloc request blocks external
            readings.staged).buildConnectorMeta
          let out := (built.2.bindConnectorMetadata built.1).startLoadKv fun _ => readings.loaded
          ⟨out.1.map fun _ => external, out.2.engine, out.2.transfer⟩
  | .sglang =>
      let c : SGLangExplicitCache σ := { engine := engine, transfer := some transfer }
      let out := c.retrieve blake2b cacheId (extractBlockIds blocks) (some (promptTokens request))
        readings.found readings.looked readings.stamp readings.loaded
      ⟨out.1.map fun n : Nat => n, out.2.engine, out.2.transfer⟩

variable {blake2b : List UInt8 → String} {t : DictKVTransfer}

/-! ## One save and one load -/

/-- The save that the adapters make. -/
def saveOp (request : Request) (cacheId : String) (blocks : Blocks) : SaveOp where
  requestId := request.requestId
  cacheId := cacheId
  tokenIds := promptTokens request
  blockIds := extractBlockIds blocks
  ttl := request.kvTransferParams.ttl
  pin := request.kvTransferParams.pin
  name := request.kvTransferParams.name

theorem store_eq_saveOps (engine : ExplicitKVCache σ) (t : DictKVTransfer) (op : SaveOp)
    (now : Time) :
    SGLangExplicitCache.store blake2b ⟨engine, some t⟩ op.cacheId op.tokenIds op.blockIds op.ttl
        op.pin op.name now =
      ((saveOps blake2b [op] (fun _ => now) engine t).1,
        ⟨(saveOps blake2b [op] (fun _ => now) engine t).2, some t⟩) := by
  simp only [SGLangExplicitCache.store, saveOps, ceilDiv]
  generalize t.saveFrom op.blockIds _ = payloads
  cases payloads with
  | error err => rfl
  | ok payloads =>
      simp only
      generalize putChunks op.pin _ engine.store = out
      obtain ⟨result, store⟩ := out
      cases result with
      | error err => rfl
      | ok _ =>
          simp only
          generalize ExplicitKVCache.commit blake2b _ _ now = committed
          obtain ⟨built, engine⟩ := committed
          cases built <;> rfl

omit [StorageBackend σ] in
theorem saves_of_staged {c : ExplicitLMCacheConnector σ} (hnothing : c.pendingSaves = ∅)
    {request : Request} (hsave : request.kvTransferParams.save = true) (cid : String)
    (blocks : Blocks) :
    (c.stageSave request cid (extractBlockIds blocks)).buildConnectorMeta.1.saves =
      [saveOp request cid blocks] := by
  simp only [ExplicitLMCacheConnector.stageSave, if_pos hsave, hnothing,
    ExplicitLMCacheConnector.buildConnectorMeta]
  exact values_setItem_empty _ _

variable (blake2b) in
omit [StorageBackend σ] in
/-- Publishing a prompt of 32-bit tokens does not raise, if its lifetime can be
added to the reading. -/
theorem commit_of_fit (s : ExplicitKVCache σ) (c : Commit) (hfit : Fit c.tokenIds) {now : Time}
    {deadline : Option Ticks} (hdeadline : Ttl.expiry now (c.ttl.or s.defaultTtl) = .ok deadline) :
    ∃ d, s.commit blake2b c now = (.ok d, s.publish c.cacheId d) ∧
      Describes blake2b d (.commit c) ∧ d.chunkSize = s.chunkSize ∧ d.expiresAt = deadline := by
  obtain ⟨digests, hdigests⟩ : ∃ digests,
      fingerprints blake2b (tokenSlices c.tokenIds s.chunkSize) = .ok digests :=
    fingerprints_of_fit (fit_of_mem_tokenSlices hfit s.chunkSize)
  unfold ExplicitKVCache.commit
  rw [chunkTokenIds_of_pos _ s.chunkSize_pos]
  simp only
  generalize hbuild : buildDescriptor _ _ _ _ _ _ _ _ _ _ = built
  cases built with
  | error err =>
      rw [build_of_ok hdeadline hdigests] at hbuild
      cases hbuild
  | ok d =>
      obtain ⟨hd, hsize, _, _, hexpires⟩ := describes_of_build (.commit c) hbuild
      exact ⟨d, rfl, hd, hsize, (Except.ok.inj (hdeadline.symm.trans hexpires)).symm⟩

/-- What the blocks of one chunk hold together. -/
def chunkPayload (t : DictKVTransfer) (blockIds : List Int) (chunkIdx : Nat) : KVPayload where
  data := (chunkBlocks (t.chunkSize / t.blockSize) blockIds chunkIdx).flatMap fun blk =>
    (t.blocks.lookup blk).getD []
  numTokens := t.chunkSize
  numLayers := t.numLayers
  fmt := "raw"

theorem saveFrom_eq (hdvd : t.blockSize ∣ t.chunkSize) (blockIds : List Int) (n : Nat) :
    t.saveFrom blockIds n = .ok ((List.range n).map (chunkPayload t blockIds)) := by
  rw [DictKVTransfer.saveFrom, DictKVTransfer.blocksPerChunk_of_dvd hdvd]
  rfl


/-! ## What a save leaves -/

/-- A save of a prompt with tokens, from blocks that cover it and hold `size`
bytes each. -/
structure Sourced (t : DictKVTransfer) (op : SaveOp) (size : Nat) : Prop where
  chunkSize_pos : 0 < t.chunkSize
  blockSize_dvd : t.blockSize ∣ t.chunkSize
  fit : Fit op.tokenIds
  covers : op.blockIds.length = (op.tokenIds.length + t.blockSize - 1) / t.blockSize
  present : ∀ blk ∈ op.blockIds, ∃ bytes, t.blocks.lookup blk = some bytes ∧ bytes.length = size

/-- The chunks of a prompt. -/
def chunkCount (t : DictKVTransfer) (op : SaveOp) : Nat :=
  (op.tokenIds.length + t.chunkSize - 1) / t.chunkSize

/-- What `commit` is given for a save. -/
def commitOf (t : DictKVTransfer) (op : SaveOp) : Commit where
  cacheId := op.cacheId
  tokenIds := op.tokenIds
  numLayers := t.numLayers
  ttl := op.ttl
  pin := op.pin
  name := op.name

/-- What `save_from` reads for a save. -/
def savedPayloads (t : DictKVTransfer) (op : SaveOp) : List KVPayload :=
  (List.range (chunkCount t op)).map (chunkPayload t op.blockIds)

/-- The puts of a save. -/
def savePuts (t : DictKVTransfer) (op : SaveOp) : List (ChunkKey × KVPayload) :=
  (savedPayloads t op).zipIdx.map fun chunk => (⟨op.cacheId, chunk.2, 0⟩, chunk.1)

theorem mem_savePuts_iff {op : SaveOp} {key : ChunkKey} {obj : KVPayload} :
    (key, obj) ∈ savePuts t op ↔ ∃ index < chunkCount t op,
      key = ⟨op.cacheId, index, 0⟩ ∧ obj = chunkPayload t op.blockIds index := by
  simp only [savePuts, savedPayloads, List.mem_map, Prod.mk.injEq, Prod.exists,
    List.mem_zipIdx_iff_getElem?, List.getElem?_map, Option.map_eq_some_iff]
  constructor
  · rintro ⟨payload, index, ⟨index', hindex, rfl⟩, rfl, rfl⟩
    obtain ⟨hlt, heq⟩ := List.getElem?_eq_some_iff.mp hindex
    rw [List.length_range] at hlt
    rw [List.getElem_range] at heq
    exact ⟨index, hlt, rfl, by rw [heq]⟩
  · rintro ⟨index, hlt, rfl, rfl⟩
    exact ⟨_, index, ⟨index, List.getElem?_range hlt, rfl⟩, rfl, rfl⟩

section Lossless

variable {σ : Type} [LosslessBackend σ] {e : ExplicitKVCache σ} {op : SaveOp} {size : Nat}

/-- A cache that was saved: its descriptor, and its chunks in the store. -/
structure Kept (blake2b : List UInt8 → String) (t : DictKVTransfer) (op : SaveOp)
    (deadline : Option Ticks) (e : ExplicitKVCache σ) : Prop where
  chunkSize : e.chunkSize = t.chunkSize
  registered : ∃ d, e.descriptors.lookup op.cacheId = some d ∧
    Describes blake2b d (.commit (commitOf t op)) ∧ d.chunkSize = t.chunkSize ∧
    d.expiresAt = deadline
  chunks : ∀ index < chunkCount t op,
    view e.store ⟨op.cacheId, index, 0⟩ = some (chunkPayload t op.blockIds index)

theorem saveOps_of_ok {payloads : List KVPayload} {store : σ} {d : CacheDescriptor}
    {e' : ExplicitKVCache σ} {now : Time}
    (hsave : t.saveFrom op.blockIds (ceilDiv op.tokenIds.length e.chunkSize).toNat = .ok payloads)
    (hputs : putChunks op.pin
      (payloads.zipIdx.map fun chunk => (⟨op.cacheId, chunk.2, 0⟩, chunk.1)) e.store =
        (.ok (), store))
    (hcommit : ({ e with store := store } : ExplicitKVCache σ).commit blake2b (commitOf t op) now =
      (.ok d, e')) : saveOps blake2b [op] (fun _ => now) e t = (.ok (), e') := by
  rw [commitOf] at hcommit
  simp only [saveOps, hsave, hputs, hcommit]

variable (blake2b) in
theorem kept_of_saveOps (h : Sourced t op size) (hchunk : t.chunkSize = e.chunkSize) {now : Time}
    {deadline : Option Ticks} (hdeadline : Ttl.expiry now (op.ttl.or e.defaultTtl) = .ok deadline) :
    (saveOps blake2b [op] (fun _ => now) e t).1 = .ok () ∧
      Kept blake2b t op deadline (saveOps blake2b [op] (fun _ => now) e t).2 := by
  have hcount : (ceilDiv op.tokenIds.length e.chunkSize).toNat = chunkCount t op := by
    rw [ceilDiv_eq _ _ e.chunkSize_pos, Int.toNat_natCast, ← hchunk]
    rfl
  let stored : ExplicitKVCache σ :=
    { e with store := (putChunks op.pin (savePuts t op) e.store).2 }
  obtain ⟨d, hcommit, hdescribes, hsize, hexpires⟩ :=
    commit_of_fit blake2b stored (commitOf t op) h.fit hdeadline
  have hrun : saveOps blake2b [op] (fun _ => now) e t = (.ok (), stored.publish op.cacheId d) := by
    have hputs : putChunks op.pin (savePuts t op) e.store = (.ok (), stored.store) :=
      Prod.ext (putChunks_ok ..) rfl
    apply saveOps_of_ok _ hputs hcommit
    rw [hcount, saveFrom_eq h.blockSize_dvd, savedPayloads]
  rw [hrun]
  refine ⟨rfl, ⟨hchunk.symm, ⟨d, ?_, hdescribes, ?_, hexpires⟩, ?_⟩⟩
  · exact lookup_publish_self ..
  · exact hsize.trans hchunk.symm
  · intro index hindex
    apply view_putChunks_of_mem
    · exact mem_savePuts_iff.mpr ⟨index, hindex, rfl, rfl⟩
    · intro obj hobj
      obtain ⟨index', _, hkey, rfl⟩ := mem_savePuts_iff.mp hobj
      simp only [ChunkKey.mk.injEq, Nat.cast_inj, true_and, and_true] at hkey
      rw [hkey]

theorem sameSettings_stageLoad (c : ExplicitLMCacheConnector σ) (request : Request) (cid : String)
    (blockIds : List Int) (external : Int) (clock : Time) :
    SameSettings c.engine (c.stageLoad request cid blockIds external clock).engine ∧
      (c.stageLoad request cid blockIds external clock).transfer = c.transfer ∧
      (c.stageLoad request cid blockIds external clock).pendingSaves = c.pendingSaves := by
  have hchange : Change (fun _ => "") c.engine (.exists cid clock) _ _ := change_step ..
  have hengine : SameSettings c.engine (c.engine.exists' cid clock).2 :=
    sameSettings_of_change hchange
  simp only [ExplicitLMCacheConnector.stageLoad]
  split <;> exact ⟨hengine, rfl, rfl⟩

theorem saves_of_updated {c : ExplicitLMCacheConnector σ} (hnothing : c.pendingSaves = ∅)
    {request : Request} {cid : String} (hcid : namedCache request.kvTransferParams = some cid)
    (hsave : request.kvTransferParams.save = true) (blocks : Blocks) (external : Int)
    (clock : Time) :
    let staged := c.updateStateAfterAlloc request blocks external clock
    SameSettings c.engine staged.engine ∧ staged.transfer = c.transfer ∧
      staged.buildConnectorMeta.1.saves = [saveOp request cid blocks] := by
  intro staged
  let loading : ExplicitLMCacheConnector σ :=
    if external > 0 then c.stageLoad request cid (extractBlockIds blocks) external clock else c
  have hstaged : staged = loading.stageSave request cid (extractBlockIds blocks) := by
    simp only [staged, ExplicitLMCacheConnector.updateStateAfterAlloc, hcid]
    rfl
  have hloading : SameSettings c.engine loading.engine ∧ loading.transfer = c.transfer ∧
      loading.pendingSaves = c.pendingSaves := by
    by_cases hexternal : external > 0
    · rw [show loading = _ from if_pos hexternal]
      exact sameSettings_stageLoad ..
    · rw [show loading = c from if_neg hexternal]
      exact ⟨.refl _, rfl, rfl⟩
  obtain ⟨hengine, htransfer, hsaves⟩ := hloading
  obtain ⟨hengine', htransfer', _⟩ :=
    ExplicitLMCacheConnector.stageSave_frame loading request cid (extractBlockIds blocks)
  rw [hstaged]
  refine ⟨?_, htransfer'.trans htransfer, ?_⟩
  · rw [hengine']
    exact hengine
  · exact saves_of_staged (hsaves.trans hnothing) hsave cid blocks

/-- Either adapter leaves the cache saved, and the paged buffer as it was. -/
theorem kept_of_save (saver : Adapter) {engine : ExplicitKVCache σ} {cid : String}
    {request : Request} {blocks : Blocks} (hcid : namedCache request.kvTransferParams = some cid)
    (hsave : request.kvTransferParams.save = true)
    (h : Sourced t (saveOp request cid blocks) size) (hchunk : t.chunkSize = engine.chunkSize)
    (external : Int) (clock : Time) {now : Time} {deadline : Option Ticks}
    (hdeadline : Ttl.expiry now (request.kvTransferParams.ttl.or engine.defaultTtl) =
      .ok deadline) :
    let out := saver.save blake2b engine t cid request blocks external clock now
    out.result = .ok () ∧ out.transfer = some t ∧
      Kept blake2b t (saveOp request cid blocks) deadline out.engine := by
  cases saver with
  | sglang =>
      obtain ⟨hok, hkept⟩ := kept_of_saveOps blake2b h hchunk hdeadline
      have hstore : SGLangExplicitCache.store blake2b ⟨engine, some t⟩ cid (promptTokens request)
          (extractBlockIds blocks) request.kvTransferParams.ttl request.kvTransferParams.pin
          request.kvTransferParams.name now = _ :=
        store_eq_saveOps engine t (saveOp request cid blocks) now
      simp only [Adapter.save, hstore]
      exact ⟨hok, trivial, hkept⟩
  | vllm bound =>
      let c : ExplicitLMCacheConnector σ :=
        { engine := engine, transfer := some t, connectorMetadata := bound }
      obtain ⟨⟨hsize, httl⟩, htransfer, hsaves⟩ :=
        saves_of_updated (c := c) rfl hcid hsave blocks external clock
      simp only [Adapter.save]
      change (let staged := c.updateStateAfterAlloc request blocks external clock
        let built := staged.buildConnectorMeta
        let out := (built.2.bindConnectorMetadata built.1).waitForSave blake2b fun _ => now
        out.1 = _ ∧ out.2.transfer = _ ∧ Kept blake2b t _ _ out.2.engine)
      generalize c.updateStateAfterAlloc request blocks external clock = staged
        at hsize httl htransfer hsaves
      have hchunk' : t.chunkSize = staged.engine.chunkSize := hchunk.trans hsize.symm
      have httl' : staged.engine.defaultTtl = engine.defaultTtl := httl
      rw [← httl'] at hdeadline
      obtain ⟨hok, hkept⟩ := kept_of_saveOps blake2b h hchunk' hdeadline
      have htransfer' : staged.transfer = some t := htransfer
      simp only [ExplicitLMCacheConnector.waitForSave,
        ExplicitLMCacheConnector.bindConnectorMetadata,
        ExplicitLMCacheConnector.buildConnectorMeta] at hsaves ⊢
      simp only [htransfer', hsaves]
      exact ⟨hok, trivial, hkept⟩

/-! ## What a load finds -/

theorem isExpired_of_deadline {d : CacheDescriptor} {deadline : Option Ticks}
    (hd : d.expiresAt = deadline) {clock : Time} (h : ∀ expiry ∈ deadline, ¬expiry.Reached clock) :
    d.isExpired none clock = false := by
  subst hd
  rw [CacheDescriptor.isExpired]
  cases hexpires : d.expiresAt with
  | none => rfl
  | some expiry => exact decide_eq_false (h expiry hexpires)

/-- No reading of the calls reaches the deadline. -/
def Before (deadline : Option Ticks) (readings : Readings) : Prop :=
  ∀ expiry ∈ deadline,
    ∀ reading ∈ [readings.found, readings.looked, readings.staged, readings.loaded],
      ¬expiry.Reached reading

/-- A saved cache is live, the prompt matches all of its chunks, and after the
edit that a lookup makes they can be loaded. -/
structure Ready (blake2b : List UInt8 → String) (t : DictKVTransfer) (op : SaveOp)
    (e : ExplicitKVCache σ) (d : CacheDescriptor) (readings : Readings) : Prop where
  registered : e.descriptors.lookup op.cacheId = some d
  matched : matchedChunkCount blake2b op.tokenIds d = .ok d.numChunks
  numTokens : d.numTokens = op.tokenIds.length
  ceil : ceilDiv d.numTokens e.chunkSize = d.numChunks
  live : ∀ reading ∈ [readings.found, readings.looked, readings.staged, readings.loaded],
    d.isExpired none reading = false
  read : ((e.publish op.cacheId
      { d with hits := d.hits + 1, lastUsedAt := some readings.stamp }).load op.cacheId
        (some d.numChunks) 0 readings.loaded).1 = .ok (savedPayloads t op)

theorem ready_of_kept {deadline : Option Ticks} (h : Kept blake2b t op deadline e)
    {readings : Readings} (hbefore : Before deadline readings) :
    ∃ d, Ready blake2b t op e d readings := by
  obtain ⟨d, hd, hdescribes, hsize, hexpires⟩ := h.registered
  have hcount : d.numChunks = chunkCount t op := by
    rw [hdescribes.numChunks, hsize, length_tokenSlices]
    rfl
  have hlive : ∀ reading ∈ [readings.found, readings.looked, readings.staged, readings.loaded],
      d.isExpired none reading = false := fun reading hreading =>
    isExpired_of_deadline hexpires fun expiry hexpiry => hbefore expiry hexpiry reading hreading
  refine ⟨d, hd, matchedChunkCount_self hdescribes, hdescribes.numTokens, ?_, hlive, ?_⟩
  · rw [ceilDiv_eq _ _ e.chunkSize_pos, h.chunkSize, hdescribes.numTokens, hcount]
    rfl
  · let d₁ : CacheDescriptor := { d with hits := d.hits + 1, lastUsedAt := some readings.stamp }
    have hlive₁ : d₁.isExpired none readings.loaded = false := hlive readings.loaded (by simp)
    have hread := load_of_live (lookup_publish_self e op.cacheId d₁) hlive₁ le_rfl 0
    apply hread.trans
    rw [loadLoop_ok_iff_view, savedPayloads, show d₁.numChunks = _ from hcount,
      List.forall₂_map_right_iff, List.forall₂_same]
    intro index hindex
    exact h.chunks index (List.mem_range.mp hindex)

section Loads

variable {d : CacheDescriptor} {request : Request} {readings : Readings}

theorem retrieve_of_ready (h : Ready blake2b t op e d readings) (hdvd : t.blockSize ∣ t.chunkSize)
    (hprompt : promptTokens request = op.tokenIds) (blocks : Blocks) :
    let out := Adapter.sglang.load blake2b e t op.cacheId request blocks readings
    out.result = .ok op.tokenIds.length ∧
      out.transfer = some (t.loadInto (extractBlockIds blocks) (savedPayloads t op)).2 := by
  have hmatched : matchedChunks blake2b d (some (promptTokens request)) = .ok d.numChunks := by
    rw [hprompt]
    exact h.matched
  have hfound := exists_of_live h.registered (h.live readings.found (by simp))
  have hlooked := lookup_of_live h.registered (h.live readings.looked (by simp)) hmatched
    readings.stamp
  have hread := h.read
  rw [if_pos rfl] at hlooked
  simp only [CacheDescriptor.numChunks] at hlooked hread
  simp only [Adapter.load, SGLangExplicitCache.retrieve, hfound, hlooked, Bool.not_true,
    Bool.false_eq_true, if_false, hread, DictKVTransfer.loadInto_fst_of_dvd hdvd, ← h.numTokens]
  exact ⟨rfl, trivial⟩

/-- The scheduler promises the whole prompt and the worker loads all chunks of
the save. -/
theorem startLoadKv_of_ready (h : Ready blake2b t op e d readings)
    (hdvd : t.blockSize ∣ t.chunkSize)
    (hcid : namedCache request.kvTransferParams = some op.cacheId)
    (hprompt : promptTokens request = op.tokenIds) (hnonempty : op.tokenIds ≠ [])
    (bound : Option ExplicitConnectorMetadata) (blocks : Blocks) :
    let out := (Adapter.vllm bound).load blake2b e t op.cacheId request blocks readings
    out.result = .ok op.tokenIds.length ∧
      out.transfer = some (t.loadInto (extractBlockIds blocks) (savedPayloads t op)).2 := by
  simp only [Adapter.load]
  set c : ExplicitLMCacheConnector σ :=
    { engine := e, transfer := some t, connectorMetadata := bound }
  have hpos : 0 < d.numTokens := by
    rw [h.numTokens]
    exact List.length_pos_iff.mpr hnonempty
  have hmax : max 0 ((d.numTokens : Int) - 0) = d.numTokens := by omega
  have hmatched := h.matched
  rw [← hprompt] at hmatched
  have hasked := asked_of_live (c := c) hcid h.registered hmatched
    (h.live readings.found (by simp)) (h.live readings.looked (by simp)) readings.stamp 0
  rw [if_pos rfl, hmax] at hasked
  let d₁ : CacheDescriptor := { d with hits := d.hits + 1, lastUsedAt := some readings.stamp }
  let c₁ : ExplicitLMCacheConnector σ := { c with engine := e.publish op.cacheId d₁ }
  have hstaged : d₁.isExpired none readings.staged = false := h.live readings.staged (by simp)
  obtain ⟨hloads, hengine, htransfer⟩ := loads_of_staged (c := c₁) hcid rfl
    (lookup_publish_self e op.cacheId d₁) hstaged blocks hpos
  simp only [hasked]
  change (let staged := c₁.updateStateAfterAlloc request blocks d.numTokens readings.staged
    let built := staged.buildConnectorMeta
    let out := (built.2.bindConnectorMetadata built.1).startLoadKv fun _ => readings.loaded
    out.1.map _ = _ ∧ out.2.transfer = _)
  generalize c₁.updateStateAfterAlloc request blocks d.numTokens readings.staged = staged
    at hloads hengine htransfer
  have hceil : ceilDiv d.numTokens c₁.engine.chunkSize = d.numChunks := h.ceil
  rw [hceil] at hloads
  let built := staged.buildConnectorMeta.2.bindConnectorMetadata staged.buildConnectorMeta.1
  have hread : (built.engine.load op.cacheId (some d.numChunks) 0 readings.loaded).1 =
      .ok (savedPayloads t op) := by
    rw [show built.engine = e.publish op.cacheId d₁ from hengine]
    exact h.read
  have hstart := startLoadKv_single (c := built) rfl hloads htransfer fun _ => readings.loaded
  simp only [hread] at hstart
  change (built.startLoadKv fun _ => readings.loaded).1.map _ = _ ∧
    (built.startLoadKv fun _ => readings.loaded).2.transfer = _
  rw [hstart, DictKVTransfer.loadInto_fst_of_dvd hdvd, ← h.numTokens]
  exact ⟨rfl, rfl⟩

end Loads

/-- Either adapter reuses the whole prompt and loads all chunks of the save. -/
theorem loaded_of_kept (loader : Adapter) {deadline : Option Ticks}
    (h : Kept blake2b t op deadline e) (hdvd : t.blockSize ∣ t.chunkSize) {request : Request}
    (hcid : namedCache request.kvTransferParams = some op.cacheId)
    (hprompt : promptTokens request = op.tokenIds) (hnonempty : op.tokenIds ≠ [])
    {readings : Readings} (hbefore : Before deadline readings) (blocks : Blocks) :
    let out := loader.load blake2b e t op.cacheId request blocks readings
    out.result = .ok op.tokenIds.length ∧
      out.transfer = some (t.loadInto (extractBlockIds blocks) (savedPayloads t op)).2 := by
  obtain ⟨d, hready⟩ := ready_of_kept h hbefore
  cases loader with
  | sglang => exact retrieve_of_ready hready hdvd hprompt blocks
  | vllm bound => exact startLoadKv_of_ready hready hdvd hcid hprompt hnonempty bound blocks

end Lossless

/-! ## The bytes -/

theorem mul_lt_of_lt_ceil {index tokens size : Nat} (hsize : 0 < size)
    (h : index < (tokens + size - 1) / size) : index * size < tokens := by
  have hle : (index + 1) * size ≤ tokens + size - 1 := (Nat.le_div_iff_mul_le hsize).mp h
  rw [Nat.succ_mul] at hle
  omega

theorem part_chunkPayload {size : Nat} {src dst : List Int} (hlen : dst.length = src.length)
    (hpresent : ∀ blk ∈ src, ∃ bytes, t.blocks.lookup blk = some bytes ∧ bytes.length = size)
    (hbpc : 0 < t.chunkSize / t.blockSize) {index : Nat} {blk : Int}
    (hblk : src[index]? = some blk) :
    DictKVTransfer.part (t.chunkSize / t.blockSize) dst index
        (chunkPayload t src (index / (t.chunkSize / t.blockSize))) = t.blocks.lookup blk := by
  obtain ⟨bytes, hbytes, _⟩ := hpresent blk (List.mem_of_getElem? hblk)
  rw [DictKVTransfer.part, chunkPayload]
  generalize t.chunkSize / t.blockSize = bpc at hbpc ⊢
  let held : Int → List UInt8 := fun blk => (t.blocks.lookup blk).getD []
  let pieces := (chunkBlocks bpc src (index / bpc)).map held
  have hsize : ∀ piece ∈ pieces, piece.length = size := by
    intro piece hpiece
    obtain ⟨blk', hblk', rfl⟩ := List.mem_map.mp hpiece
    have hsrc : blk' ∈ src := List.mem_of_mem_drop (List.mem_of_mem_take hblk')
    obtain ⟨bytes', hbytes', hlen'⟩ := hpresent blk' hsrc
    simp only [held, hbytes', Option.getD_some, hlen']
  have hcount : (chunkBlocks bpc dst (index / bpc)).length = pieces.length := by
    simp only [pieces, chunkBlocks, List.length_map, List.length_take, List.length_drop, hlen]
  have hget : (chunkBlocks bpc src (index / bpc))[index % bpc]? = some blk := by
    rw [getElem?_chunkBlocks, if_pos (Nat.mod_lt index hbpc), Nat.mul_comm, Nat.div_add_mod]
    exact hblk
  calc (split pieces.flatten (chunkBlocks bpc dst (index / bpc)).length)[index % bpc]?
      = pieces[index % bpc]? := by rw [hcount, split_flatten hsize]
    _ = some (held blk) := by rw [List.getElem?_map, hget, Option.map_some]
    _ = t.blocks.lookup blk := by simp only [held, hbytes, Option.getD_some]

theorem lookup_loadInto_saved {op : SaveOp} {size : Nat} (h : Sourced t op size) {dst : List Int}
    (hlen : dst.length = op.blockIds.length) (hnodup : dst.Nodup) {index : Nat}
    {source target : Int} (hfrom : op.blockIds[index]? = some source)
    (hto : dst[index]? = some target) :
    (t.loadInto dst (savedPayloads t op)).2.blocks.lookup target = t.blocks.lookup source := by
  have hbpc : 0 < t.chunkSize / t.blockSize :=
    Nat.div_pos (Nat.le_of_dvd h.chunkSize_pos h.blockSize_dvd) t.blockSize_pos
  obtain ⟨hindex, _⟩ := List.getElem?_eq_some_iff.mp hfrom
  rw [h.covers] at hindex
  have htoken := mul_lt_of_lt_ceil t.blockSize_pos hindex
  have hloaded : index < chunkCount t op * (t.chunkSize / t.blockSize) :=
    loadedBlocks_of_matched h.blockSize_dvd h.chunkSize_pos htoken
  have hchunk : index / (t.chunkSize / t.blockSize) < chunkCount t op :=
    (Nat.div_lt_iff_lt_mul hbpc).mpr hloaded
  rw [DictKVTransfer.lookup_loadInto h.blockSize_dvd hbpc hnodup _ hto, savedPayloads,
    List.getElem?_map, List.getElem?_range hchunk]
  exact part_chunkPayload hlen h.present hbpc hfrom

/-! ## Save, then load -/

/-- The setting: one prompt under one id, saved from blocks that cover it and
loaded into as many distinct blocks before its deadline. -/
structure Exchange {σ : Type} (engine : ExplicitKVCache σ) (t : DictKVTransfer) (cid : String)
    (saved loaded : Request) (src dst : Blocks) (size : Nat) (now : Time) (readings : Readings) :
    Prop where
  chunkSize : t.chunkSize = engine.chunkSize
  blockSize_dvd : t.blockSize ∣ t.chunkSize
  saved_named : namedCache saved.kvTransferParams = some cid
  save : saved.kvTransferParams.save = true
  loaded_named : namedCache loaded.kvTransferParams = some cid
  prompt : promptTokens loaded = promptTokens saved
  nonempty : promptTokens saved ≠ []
  fit : Fit (promptTokens saved)
  covers : (extractBlockIds src).length =
    ((promptTokens saved).length + t.blockSize - 1) / t.blockSize
  present : ∀ blk ∈ extractBlockIds src,
    ∃ bytes, t.blocks.lookup blk = some bytes ∧ bytes.length = size
  length_dst : (extractBlockIds dst).length = (extractBlockIds src).length
  distinct : (extractBlockIds dst).Nodup
  unexpired : ∃ deadline,
    Ttl.expiry now (saved.kvTransferParams.ttl.or engine.defaultTtl) = .ok deadline ∧
      Before deadline readings

/-- Every block of `dst` holds what its block of `src` held, and the other
blocks hold what they held. -/
def Copied (t after : DictKVTransfer) (src dst : List Int) : Prop :=
  (∀ (index : Nat) source target, src[index]? = some source → dst[index]? = some target →
    after.blocks.lookup target = t.blocks.lookup source) ∧
  ∀ blk, blk ∉ dst → after.blocks.lookup blk = t.blocks.lookup blk

/-- Whichever adapter saves and whichever loads, the whole prompt is reused,
every block of the load holds the bytes of its block of the save, and the other
blocks are as they were. -/
theorem restored {σ : Type} [LosslessBackend σ] (saver loader : Adapter)
    (engine : ExplicitKVCache σ) (t : DictKVTransfer) (cid : String) (saved loaded : Request)
    (src dst : Blocks) (size : Nat) (external : Int) (clock now : Time) (readings : Readings)
    (h : Exchange engine t cid saved loaded src dst size now readings) :
    let stored := saver.save blake2b engine t cid saved src external clock now
    let read := loader.load blake2b stored.engine t cid loaded dst readings
    stored.result = .ok () ∧ stored.transfer = some t ∧
      read.result = .ok (promptTokens saved).length ∧
      ∃ after, read.transfer = some after ∧
        Copied t after (extractBlockIds src) (extractBlockIds dst) := by
  intro stored read
  have hsourced : Sourced t (saveOp saved cid src) size :=
    ⟨h.chunkSize ▸ engine.chunkSize_pos, h.blockSize_dvd, h.fit, h.covers, h.present⟩
  obtain ⟨deadline, hdeadline, hbefore⟩ := h.unexpired
  obtain ⟨hok, htransfer, hkept⟩ :=
    kept_of_save saver h.saved_named h.save hsourced h.chunkSize external clock hdeadline
  obtain ⟨hcount, hafter⟩ := loaded_of_kept loader hkept h.blockSize_dvd h.loaded_named h.prompt
    h.nonempty hbefore dst
  refine ⟨hok, htransfer, hcount, _, hafter, ?_, ?_⟩
  · intro index source target hsource htarget
    exact lookup_loadInto_saved hsourced h.length_dst h.distinct hsource htarget
  · intro blk hblk
    exact DictKVTransfer.lookup_loadInto_of_not_mem t hblk _

/-- Three tokens in two blocks, saved by the vLLM connector and loaded by the
SGLang adapter. -/
theorem restored_three :
    let engine : ExplicitKVCache UnboundedCPU := ⟨.empty, 4, by decide, some 10, ∅⟩
    let t : DictKVTransfer := {
      blockSize := 2, chunkSize := 4, blocks := OrderedDict.setItems ∅ [(0, [7]), (1, [9])] }
    let saved : Request := {
      requestId := some "r", promptTokenIds := some [1, 2, 3],
      kvTransferParams := { cacheId := some "kb", save := true } }
    let stored :=
      (Adapter.vllm none).save sampleDigest engine t "kb" saved (.grouped [[0, 1]]) 0 0 5
    let read := Adapter.sglang.load sampleDigest stored.engine t "kb" saved (.ids [8, 6])
      ⟨6, 6, 6, 6, 14⟩
    stored.result = .ok () ∧ stored.transfer = some t ∧ read.result = .ok 3 ∧
      ∃ after, read.transfer = some after ∧ Copied t after [0, 1] [8, 6] := by
  intro engine t saved
  apply restored (.vllm none) .sglang engine t "kb" saved saved (.grouped [[0, 1]]) (.ids [8, 6]) 1
    0 0 5 ⟨6, 6, 6, 6, 14⟩
  refine ⟨rfl, by decide, by decide, rfl, by decide, rfl, by decide, by unfold Fit; decide,
    by decide, ?_, rfl, by decide, ?_⟩
  · intro blk hblk
    have hcases : blk = 0 ∨ blk = 1 := by simpa [extractBlockIds] using hblk
    rcases hcases with rfl | rfl
    · exact ⟨[7], rfl, rfl⟩
    · exact ⟨[9], rfl, rfl⟩
  · refine ⟨some (.finite 15), rfl, ?_⟩
    unfold Before
    decide

end LlmCache.Connectors.RoundTrip
