import LlmCache.Connectors.Vllm
import LlmCache.Engine.Chunks
import LlmCache.Engine.Prefix

/-!
# Where a scheduled load puts the KV

A request that has computed some tokens already is promised the others.  The
load that is staged for it starts at the first chunk and the first block all
the same, and takes as many chunks as the promised tokens fill.
-/

namespace LlmCache.Connectors.Placement

open Errors Lib Payload LlmCache.Types Store Engine ExplicitKVCache Descriptors Chunks Prefix
  Transfer Vllm

variable {blake2b : List UInt8 → String}

/-- The clock readings of the calls for one request, in order. -/
structure Readings where
  found : Time
  looked : Time
  stamp : Time
  staged : Time
  loaded : Time

/-- `get_num_new_matched_tokens`, `update_state_after_alloc`,
`build_connector_meta` and `start_load_kv`, one right after the other. -/
def serve (blake2b : List UInt8 → String) (c : ExplicitLMCacheConnector CPUBackend)
    (request : Request) (blocks : Blocks) (computed : Int) (readings : Readings) :
    Except Raised Unit × ExplicitLMCacheConnector CPUBackend :=
  let asked := c.getNumNewMatchedTokens blake2b request computed readings.found readings.looked
    readings.stamp
  match asked.1 with
  | .error err => (.error err, asked.2)
  | .ok (external, _) =>
      let staged := asked.2.updateStateAfterAlloc request blocks external readings.staged
      let built := staged.buildConnectorMeta
      (built.2.bindConnectorMetadata built.1).startLoadKv fun _ => readings.loaded

/-- Every block with a token that is to be reused holds what a load of all
matched chunks would put there, and the blocks before them are as they were. -/
def PlacedRight (blake2b : List UInt8 → String) (c : ExplicitLMCacheConnector CPUBackend)
    (t : DictKVTransfer) (request : Request) (blocks : Blocks) (cid : String)
    (matched computed external : Nat) (readings : Readings) : Prop :=
  ∃ payloads after,
    (c.engine.load cid (some matched) 0 readings.loaded).1 = .ok payloads ∧
    (serve blake2b c request blocks computed readings).1 = .ok () ∧
    (serve blake2b c request blocks computed readings).2.transfer = some after ∧
    (∀ position blk, computed ≤ position → position < computed + external →
      (extractBlockIds blocks)[position / t.blockSize]? = some blk →
      after.blocks.lookup blk =
        (t.loadInto (extractBlockIds blocks) payloads).2.blocks.lookup blk) ∧
    ∀ index blk, (index + 1) * t.blockSize ≤ computed →
      (extractBlockIds blocks)[index]? = some blk →
      after.blocks.lookup blk = t.blocks.lookup blk

/-- How many blocks the staged load writes. -/
def loadedBlocks (t : DictKVTransfer) (external : Nat) : Nat :=
  (external + t.chunkSize - 1) / t.chunkSize * (t.chunkSize / t.blockSize)

/-- The blocks that the staged load writes though it should not, and those that
it does not write though it should, hold the bytes of a load of all matched
chunks beforehand. -/
def AlreadyPlaced (c : ExplicitLMCacheConnector CPUBackend) (t : DictKVTransfer)
    (blocks : Blocks) (cid : String) (matched computed external : Nat) (readings : Readings) :
    Prop :=
  ∀ payloads, (c.engine.load cid (some matched) 0 readings.loaded).1 = .ok payloads →
    ∀ index blk, (extractBlockIds blocks)[index]? = some blk →
      (index < loadedBlocks t external ∧ (index + 1) * t.blockSize ≤ computed ∨
        loadedBlocks t external ≤ index ∧ computed < (index + 1) * t.blockSize ∧
          index * t.blockSize < computed + external) →
      t.blocks.lookup blk =
        (t.loadInto (extractBlockIds blocks) payloads).2.blocks.lookup blk

/-- The setting: a connector with nothing staged over an engine that any run
has reached, a request for a cache that does not expire meanwhile, a block list
without duplicates, and more than zero tokens promised to the request. -/
structure Promised (blake2b : List UInt8 → String) (c : ExplicitLMCacheConnector CPUBackend)
    (t : DictKVTransfer) (request : Request) (blocks : Blocks) (cid : String)
    (d : CacheDescriptor) (matched computed external : Nat) (readings : Readings) : Prop where
  reached : ∃ s ops, s.descriptors = ∅ ∧ c.engine = (machine blake2b CPUBackend).exec s ops
  idle : c.pendingLoads = ∅
  transfer : c.transfer = some t
  chunkSize : t.chunkSize = c.engine.chunkSize
  blockSize_dvd : t.blockSize ∣ t.chunkSize
  distinct : (extractBlockIds blocks).Nodup
  named : namedCache request.kvTransferParams = some cid
  registered : c.engine.descriptors.lookup cid = some d
  unexpired : ∀ reading ∈ [readings.found, readings.looked, readings.staged, readings.loaded],
    d.isExpired none reading = false
  matched : matchedChunkCount blake2b (promptTokens request) d = .ok matched
  promised : (c.getNumNewMatchedTokens blake2b request computed readings.found readings.looked
    readings.stamp).1 = .ok (external, false)
  promised_pos : 0 < external

/-! ## The four calls -/

section Live

variable {σ : Type} [StorageBackend σ]

theorem exists_of_live {e : ExplicitKVCache σ} {cid : String} {d : CacheDescriptor}
    (hd : e.descriptors.lookup cid = some d) {clock : Time}
    (hlive : d.isExpired none clock = false) : e.exists' cid clock = (true, e) := by
  simp [exists', liveDescriptor, hd, hlive]

/-- Asking about a live cache promises the matched tokens that are not computed
yet, and only edits its descriptor. -/
theorem asked_of_live {c : ExplicitLMCacheConnector σ} {request : Request} {cid : String}
    (hcid : namedCache request.kvTransferParams = some cid) {d : CacheDescriptor}
    (hd : c.engine.descriptors.lookup cid = some d) {matched : Nat}
    (hmatched : matchedChunkCount blake2b (promptTokens request) d = .ok matched)
    {clock clock' : Time} (hlive : d.isExpired none clock = false)
    (hlive' : d.isExpired none clock' = false) (stamp : Time) (computed : Int) :
    c.getNumNewMatchedTokens blake2b request computed clock clock' stamp =
      (.ok (max 0 (((if matched = d.numChunks then d.numTokens
          else matched * d.chunkSize : Nat) : Int) - computed), false),
        { c with
          engine := c.engine.publish cid
            { d with hits := d.hits + 1, lastUsedAt := some stamp } }) := by
  have hmatched' : matchedChunks blake2b d (some (promptTokens request)) = .ok matched := hmatched
  have hfound := exists_of_live hd hlive
  have hlooked := lookup_of_live hd hlive' hmatched' stamp
  simp only [ExplicitLMCacheConnector.getNumNewMatchedTokens, hcid, hfound, hlooked]
  rfl

theorem values_setItem_empty {α β : Type} [DecidableEq α] (key : α) (value : β) :
    OrderedDict.values (OrderedDict.setItem (∅ : OrderedDict α β) key value) = [value] := by
  rfl

theorem loads_of_staged {c : ExplicitLMCacheConnector σ} {request : Request}
    {cid : String} (hcid : namedCache request.kvTransferParams = some cid)
    (hnothing : c.pendingLoads = ∅) {d : CacheDescriptor}
    (hd : c.engine.descriptors.lookup cid = some d) {clock : Time}
    (hlive : d.isExpired none clock = false) (blocks : Blocks) {external : Nat}
    (hpos : 0 < external) :
    let staged := c.updateStateAfterAlloc request blocks external clock
    staged.buildConnectorMeta.1.loads =
        [{ requestId := request.requestId, cacheId := cid, blockIds := extractBlockIds blocks,
           numChunks := ceilDiv external c.engine.chunkSize }] ∧
      staged.engine = c.engine ∧ staged.transfer = c.transfer := by
  have hfound := exists_of_live hd hlive
  have hstaged : (external : Int) > 0 := by omega
  simp only [ExplicitLMCacheConnector.updateStateAfterAlloc, hcid, if_pos hstaged,
    ExplicitLMCacheConnector.stageLoad, hfound, if_true, hnothing,
    ExplicitLMCacheConnector.buildConnectorMeta]
  obtain ⟨hengine, htransfer, hloads⟩ := ExplicitLMCacheConnector.stageSave_frame
    { c with
      pendingLoads := OrderedDict.setItem ∅ request.requestId
        { requestId := request.requestId, cacheId := cid, blockIds := extractBlockIds blocks,
          numChunks := ceilDiv external c.engine.chunkSize } } request cid (extractBlockIds blocks)
  refine ⟨?_, hengine, htransfer⟩
  rw [hloads]
  exact values_setItem_empty _ _

theorem startLoadKv_single {c : ExplicitLMCacheConnector σ} {metadata : ExplicitConnectorMetadata}
    (hmetadata : c.connectorMetadata = some metadata) {op : LoadOp} (hloads : metadata.loads = [op])
    {t : DictKVTransfer} (htransfer : c.transfer = some t) (clock : Nat → Time) :
    c.startLoadKv clock =
      let read := c.engine.load op.cacheId (some op.numChunks) 0 (clock 0)
      match read.1 with
      | .error err => (.error err, { c with engine := read.2, transfer := some t })
      | .ok payloads =>
          let written := t.loadInto op.blockIds payloads
          (written.1, { c with engine := read.2, transfer := some written.2 }) := by
  simp only [ExplicitLMCacheConnector.startLoadKv, hmetadata, htransfer, hloads, loadOps]
  cases (c.engine.load op.cacheId (some op.numChunks) 0 (clock 0)).1 with
  | error err => rfl
  | ok payloads =>
      simp only
      cases (t.loadInto op.blockIds payloads).1 <;> rfl

end Live

theorem serve_eq_startLoadKv {c : ExplicitLMCacheConnector CPUBackend} {request : Request}
    {cid : String} (hcid : namedCache request.kvTransferParams = some cid)
    (hnothing : c.pendingLoads = ∅) {d : CacheDescriptor}
    (hd : c.engine.descriptors.lookup cid = some d) {matched : Nat}
    (hmatched : matchedChunkCount blake2b (promptTokens request) d = .ok matched)
    {readings : Readings} (hfound : d.isExpired none readings.found = false)
    (hlooked : d.isExpired none readings.looked = false)
    (hstaged : d.isExpired none readings.staged = false) {computed external : Nat}
    (hexternal : (if matched = d.numChunks then d.numTokens else matched * d.chunkSize) =
      computed + external) (hpos : 0 < external) (blocks : Blocks) :
    ∃ (bound : ExplicitLMCacheConnector CPUBackend) (metadata : ExplicitConnectorMetadata),
      serve blake2b c request blocks computed readings =
          bound.startLoadKv (fun _ => readings.loaded) ∧
        bound.engine =
          c.engine.publish cid { d with hits := d.hits + 1, lastUsedAt := some readings.stamp } ∧
        bound.transfer = c.transfer ∧ bound.connectorMetadata = some metadata ∧
        metadata.loads =
          [{ requestId := request.requestId, cacheId := cid, blockIds := extractBlockIds blocks,
             numChunks := ceilDiv external c.engine.chunkSize }] := by
  have hmax : max 0 (((computed + external : Nat) : Int) - computed) = external := by omega
  have hasked := asked_of_live hcid hd hmatched hfound hlooked readings.stamp (computed : Int)
  rw [hexternal, hmax] at hasked
  let d₁ : CacheDescriptor := { d with hits := d.hits + 1, lastUsedAt := some readings.stamp }
  let c₁ : ExplicitLMCacheConnector CPUBackend := { c with engine := c.engine.publish cid d₁ }
  have hd₁ : c₁.engine.descriptors.lookup cid = some d₁ := lookup_publish_self ..
  have hstaged₁ : d₁.isExpired none readings.staged = false := hstaged
  obtain ⟨hloads, hengine, htransfer⟩ :=
    loads_of_staged hcid (c := c₁) hnothing hd₁ hstaged₁ blocks hpos
  let staged := c₁.updateStateAfterAlloc request blocks external readings.staged
  let built := staged.buildConnectorMeta
  refine ⟨built.2.bindConnectorMetadata built.1, built.1, ?_, hengine, htransfer, rfl, hloads⟩
  simp only [serve, hasked]
  rfl

/-- What the four calls do: a load of as many chunks as the promised tokens
fill, from the first chunk on, into the blocks from the first one on. -/
theorem serve_of_live {c : ExplicitLMCacheConnector CPUBackend} {t : DictKVTransfer}
    (htransfer : c.transfer = some t) (hdvd : t.blockSize ∣ t.chunkSize) {request : Request}
    {cid : String} (hcid : namedCache request.kvTransferParams = some cid)
    (hnothing : c.pendingLoads = ∅) {d : CacheDescriptor}
    (hd : c.engine.descriptors.lookup cid = some d) {matched : Nat}
    (hmatched : matchedChunkCount blake2b (promptTokens request) d = .ok matched)
    {readings : Readings} (hfound : d.isExpired none readings.found = false)
    (hlooked : d.isExpired none readings.looked = false)
    (hstaged : d.isExpired none readings.staged = false)
    (hloaded : d.isExpired none readings.loaded = false) {computed external : Nat}
    (hexternal : (if matched = d.numChunks then d.numTokens else matched * d.chunkSize) =
      computed + external) (hpos : 0 < external) (blocks : Blocks)
    (hcount : (external + c.engine.chunkSize - 1) / c.engine.chunkSize ≤ d.numChunks) :
    let served := serve blake2b c request blocks computed readings
    let read := (loadLoop cid 0
      (List.range ((external + c.engine.chunkSize - 1) / c.engine.chunkSize)) c.engine.store).1
    served.1 = read.map (fun _ => ()) ∧
      ∀ payloads, read = .ok payloads →
        served.2.transfer = some (t.loadInto (extractBlockIds blocks) payloads).2 := by
  intro served read
  obtain ⟨bound, metadata, hserve, hengine, htransfer₁, hmetadata, hloads⟩ :=
    serve_eq_startLoadKv hcid hnothing hd hmatched hfound hlooked hstaged hexternal hpos blocks
  let d₁ : CacheDescriptor := { d with hits := d.hits + 1, lastUsedAt := some readings.stamp }
  have hloaded₁ : d₁.isExpired none readings.loaded = false := hloaded
  have hread : (bound.engine.load cid (some (ceilDiv external c.engine.chunkSize)) 0
      readings.loaded).1 = read := by
    rw [hengine, ceilDiv_eq _ _ c.engine.chunkSize_pos]
    exact load_of_live (lookup_publish_self c.engine cid d₁) hloaded₁ hcount 0
  simp only [served, hserve, startLoadKv_single hmetadata hloads (htransfer₁.trans htransfer),
    hread]
  cases read with
  | error err => exact ⟨rfl, fun payloads h => by cases h⟩
  | ok payloads =>
      refine ⟨DictKVTransfer.loadInto_fst_of_dvd hdvd _ _, fun payloads' hpayloads => ?_⟩
      obtain rfl := Except.ok.inj hpayloads
      rfl

/-! ## Which blocks are right -/

theorem lookup_loadInto_take {t : DictKVTransfer} (hdvd : t.blockSize ∣ t.chunkSize)
    (hbpc : 0 < t.chunkSize / t.blockSize) {blockIds : List Int} (hnodup : blockIds.Nodup)
    (payloads : List KVPayload) (count : Nat) {index : Nat} {blk : Int}
    (hblk : blockIds[index]? = some blk) :
    (t.loadInto blockIds (payloads.take count)).2.blocks.lookup blk =
      if index < count * (t.chunkSize / t.blockSize) then
        (t.loadInto blockIds payloads).2.blocks.lookup blk
      else t.blocks.lookup blk := by
  rw [DictKVTransfer.lookup_loadInto hdvd hbpc hnodup _ hblk,
    DictKVTransfer.lookup_loadInto hdvd hbpc hnodup _ hblk, List.getElem?_take]
  by_cases hlt : index < count * (t.chunkSize / t.blockSize)
  · rw [if_pos hlt, if_pos ((Nat.div_lt_iff_lt_mul hbpc).mpr hlt)]
  · rw [if_neg hlt, if_neg fun h => hlt ((Nat.div_lt_iff_lt_mul hbpc).mp h)]

theorem loadLoop_take {store : CPUBackend} {cid : String} {matched count : Nat}
    (hcount : count ≤ matched) {payloads : List KVPayload}
    (h : (loadLoop cid 0 (List.range matched) store).1 = .ok payloads) :
    (loadLoop cid 0 (List.range count) store).1 = .ok (payloads.take count) := by
  rw [loadLoop_ok_iff] at h ⊢
  have htake := List.forall₂_take count h
  rwa [List.take_range, Nat.min_eq_left hcount] at htake

theorem loadLoop_isOk_iff {store : CPUBackend} {cid : String} {matched : Nat} :
    (∃ payloads, (loadLoop cid 0 (List.range matched) store).1 = .ok payloads) ↔
      ∀ index : Nat, index < matched → (store.resident ⟨cid, index, 0⟩).isSome := by
  simp only [loadLoop_ok_iff_map, exists_payloads_iff, List.mem_range]

/-- With nothing computed, the staged load takes all matched chunks and there
is no block that it misses. -/
theorem loadedBlocks_of_matched {t : DictKVTransfer} (hdvd : t.blockSize ∣ t.chunkSize)
    (hsize : 0 < t.chunkSize) {external index : Nat}
    (hindex : index * t.blockSize < external) : index < loadedBlocks t external := by
  obtain ⟨bpc, hbpc⟩ := hdvd
  have hdiv : t.chunkSize / t.blockSize = bpc := by
    rw [hbpc, Nat.mul_div_cancel_left _ t.blockSize_pos]
  have hceil : external ≤ (external + t.chunkSize - 1) / t.chunkSize * t.chunkSize := by
    have hlt := Nat.lt_div_mul_add (a := external + t.chunkSize - 1) hsize
    omega
  have hmul : (external + t.chunkSize - 1) / t.chunkSize * t.chunkSize =
      loadedBlocks t external * t.blockSize := by
    rw [loadedBlocks, hdiv, Nat.mul_assoc, Nat.mul_comm bpc, ← hbpc]
  exact Nat.lt_of_mul_lt_mul_right (a := t.blockSize) (by omega)

section Served

variable {c : ExplicitLMCacheConnector CPUBackend} {t : DictKVTransfer} {request : Request}
  {blocks : Blocks} {cid : String} {d : CacheDescriptor} {matched computed external : Nat}
  {readings : Readings}

/-- With the outcome of the four calls and of a load of all matched chunks at
hand, the blocks are right exactly when the wrong ones were right beforehand. -/
theorem placedRight_iff_of_served (hdvd : t.blockSize ∣ t.chunkSize)
    (hbpc : 0 < t.chunkSize / t.blockSize) (hnodup : (extractBlockIds blocks).Nodup)
    {payloads : List KVPayload}
    (hload : (c.engine.load cid (some matched) 0 readings.loaded).1 = .ok payloads)
    (hserve : (serve blake2b c request blocks computed readings).1 = .ok ())
    (htransfer : (serve blake2b c request blocks computed readings).2.transfer =
      some (t.loadInto (extractBlockIds blocks)
        (payloads.take ((external + t.chunkSize - 1) / t.chunkSize))).2) (hpos : 0 < external) :
    PlacedRight blake2b c t request blocks cid matched computed external readings ↔
      AlreadyPlaced c t blocks cid matched computed external readings := by
  have hafter : ∀ {index : Nat} {blk : Int}, (extractBlockIds blocks)[index]? = some blk →
      (t.loadInto (extractBlockIds blocks)
          (payloads.take ((external + t.chunkSize - 1) / t.chunkSize))).2.blocks.lookup blk =
        if index < loadedBlocks t external then
          (t.loadInto (extractBlockIds blocks) payloads).2.blocks.lookup blk
        else t.blocks.lookup blk :=
    fun hblk => lookup_loadInto_take hdvd hbpc hnodup payloads _ hblk
  constructor
  · rintro ⟨payloads₁, after, hload₁, _, htransfer₁, hreused, hkept⟩ payloads₂ hload₂ index blk hblk
      hwrong
    obtain rfl := Except.ok.inj (hload₁.symm.trans hload)
    obtain rfl := Except.ok.inj (hload₂.symm.trans hload)
    obtain rfl := Option.some.inj (htransfer₁.symm.trans htransfer)
    rcases hwrong with ⟨hwritten, hbefore⟩ | ⟨hmissed, hlow, hhigh⟩
    · have hsame := hkept index blk hbefore hblk
      rw [hafter hblk, if_pos hwritten] at hsame
      exact hsame.symm
    · -- a reused position in the block
      have hposition : max computed (index * t.blockSize) / t.blockSize = index := by
        apply Nat.div_eq_of_lt_le
        · exact Nat.le_max_right ..
        · exact Nat.max_lt.mpr ⟨hlow, Nat.mul_lt_mul_of_pos_right (by omega) t.blockSize_pos⟩
      have hsame := hreused (max computed (index * t.blockSize)) blk (Nat.le_max_left ..)
        (by omega) (by rw [hposition]; exact hblk)
      rw [hafter hblk, if_neg (by omega)] at hsame
      exact hsame
  · intro halready
    refine ⟨payloads, _, hload, hserve, htransfer, ?_, ?_⟩
    · intro position blk hlow hhigh hblk
      rw [hafter hblk]
      split_ifs with hwritten
      · rfl
      · apply halready payloads hload _ blk hblk
        have hle := Nat.div_mul_le_self position t.blockSize
        have hlt := Nat.lt_div_mul_add (a := position) t.blockSize_pos
        refine .inr ⟨by omega, ?_, by omega⟩
        rw [Nat.add_mul, Nat.one_mul]
        omega
    · intro index blk hbefore hblk
      rw [hafter hblk]
      split_ifs with hwritten
      · exact (halready payloads hload index blk hblk (.inl ⟨hwritten, hbefore⟩)).symm
      · rfl

theorem alreadyPlaced_of_zero (hdvd : t.blockSize ∣ t.chunkSize) (hsize : 0 < t.chunkSize) :
    AlreadyPlaced c t blocks cid matched 0 external readings := by
  rintro payloads _ index blk _ (⟨_, hbefore⟩ | ⟨hmissed, _, hhigh⟩)
  · have hpos : 0 < (index + 1) * t.blockSize := Nat.mul_pos index.succ_pos t.blockSize_pos
    omega
  · have hlt := loadedBlocks_of_matched hdvd hsize (show index * t.blockSize < external by omega)
    omega

theorem ceil_of_matched {start e : ExplicitKVCache CPUBackend} (hempty : start.descriptors = ∅)
    (hreach : (machine blake2b CPUBackend).Reaches start e) {cid : String} {d : CacheDescriptor}
    (hd : e.descriptors.lookup cid = some d) {tokens : List Int} {matched : Nat}
    (hmatched : matchedChunkCount blake2b tokens d = .ok matched) :
    matched ≤ d.numChunks ∧
      ((if matched = d.numChunks then d.numTokens else matched * d.chunkSize) +
        e.chunkSize - 1) / e.chunkSize = matched := by
  obtain ⟨ops, rfl⟩ := hreach
  have hinv : Described blake2b start.chunkSize _ _ := described_run start hempty ops
  obtain ⟨source, _, hdesc, hsize, _⟩ := hinv.descriptors cid d hd
  obtain ⟨hle, htokens, hceil⟩ := length_of_matched hdesc hmatched
  refine ⟨hle, ?_⟩
  rw [htokens, hinv.chunkSize, ← hsize]
  exact hceil.symm

theorem Promised.count_le
    (h : Promised blake2b c t request blocks cid d matched computed external readings) :
    matched ≤ d.numChunks ∧
      (if matched = d.numChunks then d.numTokens else matched * d.chunkSize) =
        computed + external ∧
      (external + t.chunkSize - 1) / t.chunkSize ≤ matched := by
  obtain ⟨s, ops, hempty, hengine⟩ := h.reached
  obtain ⟨hle, hceil⟩ := ceil_of_matched hempty ⟨ops, hengine⟩ h.registered h.matched
  have hasked := asked_of_live h.named h.registered h.matched (h.unexpired readings.found (by simp))
    (h.unexpired readings.looked (by simp)) readings.stamp (computed : Int)
  have hpromised := h.promised
  rw [hasked] at hpromised
  have hexternal := congrArg Prod.fst (Except.ok.inj hpromised)
  have hpos := h.promised_pos
  have hsum : (if matched = d.numChunks then d.numTokens else matched * d.chunkSize) =
      computed + external := by
    simp only at hexternal
    omega
  refine ⟨hle, hsum, ?_⟩
  rw [hsum, ← h.chunkSize] at hceil
  calc (external + t.chunkSize - 1) / t.chunkSize
      ≤ (computed + external + t.chunkSize - 1) / t.chunkSize :=
        Nat.div_le_div_right (by omega)
    _ = matched := hceil

end Served

/-- The four calls put the right KV in place exactly when worker 0's matched
chunks are in the store and either nothing had been computed, or the blocks that
the load gets wrong were right beforehand. -/
theorem placedRight_iff (c : ExplicitLMCacheConnector CPUBackend) (t : DictKVTransfer)
    (request : Request) (blocks : Blocks) (cid : String) (d : CacheDescriptor)
    (matched computed external : Nat) (readings : Readings)
    (h : Promised blake2b c t request blocks cid d matched computed external readings) :
    PlacedRight blake2b c t request blocks cid matched computed external readings ↔
      (∀ index : Nat, index < matched → (c.engine.store.resident ⟨cid, index, 0⟩).isSome) ∧
        (computed = 0 ∨ AlreadyPlaced c t blocks cid matched computed external readings) := by
  obtain ⟨hmatched, hsum, hcount⟩ := h.count_le
  have hsize : 0 < t.chunkSize := h.chunkSize ▸ c.engine.chunkSize_pos
  have hbpc : 0 < t.chunkSize / t.blockSize :=
    Nat.div_pos (Nat.le_of_dvd hsize h.blockSize_dvd) t.blockSize_pos
  have hloaded := h.unexpired readings.loaded (by simp)
  have hload := load_of_live h.registered hloaded hmatched 0
  by_cases hstored : ∀ index : Nat, index < matched →
      (c.engine.store.resident ⟨cid, index, 0⟩).isSome
  · obtain ⟨payloads, hpayloads⟩ := loadLoop_isOk_iff.mpr hstored
    obtain ⟨hserve, htransfer⟩ := serve_of_live h.transfer h.blockSize_dvd h.named h.idle
      h.registered h.matched (h.unexpired readings.found (by simp))
      (h.unexpired readings.looked (by simp)) (h.unexpired readings.staged (by simp)) hloaded hsum
      h.promised_pos blocks (by rw [← h.chunkSize]; omega)
    rw [← h.chunkSize] at hserve htransfer
    rw [loadLoop_take hcount hpayloads] at hserve
    have hafter := htransfer _ (loadLoop_take hcount hpayloads)
    rw [placedRight_iff_of_served h.blockSize_dvd hbpc h.distinct (hload.trans hpayloads) hserve
      hafter h.promised_pos]
    constructor
    · exact fun halready => ⟨hstored, .inr halready⟩
    · rintro ⟨_, rfl | halready⟩
      · exact alreadyPlaced_of_zero h.blockSize_dvd hsize
      · exact halready
  · apply iff_of_false
    · rintro ⟨payloads, _, hpayloads, _⟩
      exact hstored (loadLoop_isOk_iff.mp ⟨payloads, hload.symm.trans hpayloads⟩)
    · exact fun hright => hstored hright.1

/-- A connector over an engine where two chunks are registered for three tokens. -/
def sampleConnector : ExplicitLMCacheConnector CPUBackend :=
  let s : ExplicitKVCache CPUBackend := ⟨{}, 2, by decide, none, ∅⟩
  let r : Registration :=
    ⟨[1, 2, 3], .sequence [.ofBytes [7, 7], .ofBytes [9, 9]], some "kb", none, false, none⟩
  { engine := (machine sampleDigest CPUBackend).exec s [.register r "new" 0]
    transfer := some { blockSize := 2, chunkSize := 2 } }

def sampleRequest : Request :=
  { requestId := some "r", promptTokenIds := some [1, 2, 3],
    kvTransferParams := { cacheId := some "kb" } }

def sampleDescriptor : CacheDescriptor :=
  { cacheId := "kb", numTokens := 3, chunkSize := 2, numLayers := 1, workerIds := [0],
    createdAt := 0, expiresAt := none, pinned := false,
    chunkFingerprints := ["2cc5e4d47c5f3c5fbe635a5a5b7bb392", "de18007c0afadc771c45bf719bc7fe51"] }

theorem sample_promised {computed external : Nat}
    (hpromised : (sampleConnector.getNumNewMatchedTokens sampleDigest sampleRequest computed 0 0
      0).1 = .ok (external, false)) (hpos : 0 < external) :
    Promised sampleDigest sampleConnector { blockSize := 2, chunkSize := 2 } sampleRequest
      (.grouped [[10, 11]]) "kb" sampleDescriptor 2 computed external ⟨0, 0, 0, 0, 0⟩ where
  reached := ⟨_, _, rfl, rfl⟩
  idle := rfl
  transfer := rfl
  chunkSize := by decide +kernel
  blockSize_dvd := by decide
  distinct := by decide
  named := by decide
  registered := by decide +kernel
  unexpired := by simp [sampleDescriptor, CacheDescriptor.isExpired]
  matched := by decide +kernel
  promised := hpromised
  promised_pos := hpos

theorem placedRight_iff_sample :
    PlacedRight sampleDigest sampleConnector { blockSize := 2, chunkSize := 2 } sampleRequest
        (.grouped [[10, 11]]) "kb" 2 0 3 ⟨0, 0, 0, 0, 0⟩ ↔
      (∀ index : Nat, index < 2 →
          (sampleConnector.engine.store.resident ⟨"kb", index, 0⟩).isSome) ∧
        (0 = 0 ∨ AlreadyPlaced sampleConnector { blockSize := 2, chunkSize := 2 }
          (.grouped [[10, 11]]) "kb" 2 0 3 ⟨0, 0, 0, 0, 0⟩) :=
  placedRight_iff sampleConnector _ sampleRequest (.grouped [[10, 11]]) "kb" sampleDescriptor 2 0 3
    ⟨0, 0, 0, 0, 0⟩ (sample_promised (by decide +kernel) (by decide))

/-- Two of three tokens are computed: the load puts the first chunk into the
first block, and the block of the promised token stays empty. -/
theorem placed_from_first_block :
    Promised sampleDigest sampleConnector { blockSize := 2, chunkSize := 2 } sampleRequest
        (.grouped [[10, 11]]) "kb" sampleDescriptor 2 2 1 ⟨0, 0, 0, 0, 0⟩ ∧
      ¬PlacedRight sampleDigest sampleConnector { blockSize := 2, chunkSize := 2 } sampleRequest
        (.grouped [[10, 11]]) "kb" 2 2 1 ⟨0, 0, 0, 0, 0⟩ := by
  refine ⟨sample_promised (by decide +kernel) (by decide), ?_⟩
  rintro ⟨payloads, after, hload, _, htransfer, hreused, _⟩
  have hchunks : (sampleConnector.engine.load "kb" (some 2) 0 0).1 =
      .ok [.ofBytes [7, 7], .ofBytes [9, 9]] := by decide +kernel
  obtain rfl := Except.ok.inj (hload.symm.trans hchunks)
  have hempty : (serve sampleDigest sampleConnector sampleRequest (.grouped [[10, 11]]) 2
      ⟨0, 0, 0, 0, 0⟩).2.transfer.map (·.blocks.lookup 11) = some none := by decide +kernel
  have hsame := hreused 2 11 (by decide) (by decide) rfl
  rw [Nat.cast_ofNat] at htransfer
  rw [htransfer, Option.map_some, hsame] at hempty
  revert hempty
  decide +kernel

end LlmCache.Connectors.Placement
