import LlmCache.Connectors.Placement
import LlmCache.Connectors.Runs

/-!
# When a scheduled load can be honoured

The scheduler promises tokens on the strength of a descriptor and its
fingerprints.  The worker needs the matched chunks of worker 0 in the store,
and a paged buffer whose chunks are made of whole blocks.
-/

namespace LlmCache.Connectors.Honoured

open Errors Lib Payload LlmCache.Types Store Engine ExplicitKVCache Descriptors Chunks Prefix
  Transfer Vllm Placement Runs

variable {blake2b : List UInt8 → String}

/-- No cache that is live when it is asked about expires before its load. -/
def NoneExpires (e : ExplicitKVCache CPUBackend) (readings : Readings) : Prop :=
  ∀ cid d, e.descriptors.lookup cid = some d → d.isExpired none readings.found = false →
    ∀ reading ∈ [readings.looked, readings.staged, readings.loaded],
      d.isExpired none reading = false

/-- A connector with nothing staged promises tokens to a request that has
computed none, and no cache expires before the load. -/
structure Scheduled (blake2b : List UInt8 → String) (c : ExplicitLMCacheConnector CPUBackend)
    (request : Request) (readings : Readings) : Prop where
  noLoads : c.pendingLoads = ∅
  noSaves : c.pendingSaves = ∅
  promised : ∃ external : Int, 0 < external ∧
    (c.getNumNewMatchedTokens blake2b request 0 readings.found readings.looked readings.stamp).1 =
      .ok (external, false)
  unexpired : NoneExpires c.engine readings

/-- If there is a paged buffer, its chunks are made of whole blocks, and the
chunks of worker 0 that the prompt matches are in the store. -/
def Honourable (blake2b : List UInt8 → String) (c : ExplicitLMCacheConnector CPUBackend)
    (request : Request) : Prop :=
  ∀ t, c.transfer = some t → t.blockSize ∣ t.chunkSize ∧
    ∀ cid d matched, namedCache request.kvTransferParams = some cid →
      c.engine.descriptors.lookup cid = some d →
      matchedChunkCount blake2b (promptTokens request) d = .ok matched →
      ∀ index : Nat, index < matched → (c.engine.store.resident ⟨cid, index, 0⟩).isSome

variable {c : ExplicitLMCacheConnector CPUBackend} {request : Request} {readings : Readings}

theorem live_of_exists {e : ExplicitKVCache CPUBackend} {cid : String} {clock : Time}
    (h : (e.exists' cid clock).1 = true) :
    ∃ d, e.descriptors.lookup cid = some d ∧ d.isExpired none clock = false := by
  unfold exists' at h
  rcases liveDescriptor_cases e cid clock with ⟨_, hres⟩ | ⟨d, hd, ⟨_, hres⟩ | ⟨hlive, _⟩⟩
  · simp [hres] at h
  · simp [hres] at h
  · exact ⟨d, hd, hlive⟩

theorem exists_of_promised {external : Int} (hpos : 0 < external)
    (h : (c.getNumNewMatchedTokens blake2b request 0 readings.found readings.looked
      readings.stamp).1 = .ok (external, false)) :
    ∃ cid d matched, namedCache request.kvTransferParams = some cid ∧
      c.engine.descriptors.lookup cid = some d ∧ d.isExpired none readings.found = false ∧
      matchedChunkCount blake2b (promptTokens request) d = .ok matched ∧
      external = (if matched = d.numChunks then d.numTokens else matched * d.chunkSize : Nat) := by
  unfold ExplicitLMCacheConnector.getNumNewMatchedTokens at h
  cases hcid : namedCache request.kvTransferParams with
  | none =>
      simp only [hcid, Except.ok.injEq, Prod.mk.injEq] at h
      omega
  | some cid =>
      simp only [hcid] at h
      by_cases hfound : (c.engine.exists' cid readings.found).1 = true
      · obtain ⟨d, hd, hlive⟩ := live_of_exists hfound
        rw [exists_of_live hd hlive] at h
        simp only [Bool.not_true, Bool.false_eq_true, if_false] at h
        cases hlookup : (c.engine.lookup blake2b cid (some (promptTokens request)) readings.looked
            readings.stamp).1 with
        | error err => simp [hlookup, Except.map] at h
        | ok result =>
            simp only [hlookup, Except.map, Except.ok.injEq, Prod.mk.injEq] at h
            obtain ⟨d', hd', _, hmatched, htokens, _, _⟩ := lookup_of_ok hlookup
            obtain rfl := Option.some.inj (hd.symm.trans hd')
            refine ⟨cid, d, result.numChunks, rfl, hd, hlive, hmatched, ?_⟩
            rw [← htokens]
            omega
      · simp only [hfound, Bool.not_false, if_true, Except.ok.injEq, Prod.mk.injEq] at h
        omega

/-- A load of the first chunks of worker 0 goes through exactly when chunks are
made of whole blocks and all of these are in the store. -/
theorem startLoadKv_ok_iff {metadata : ExplicitConnectorMetadata}
    (hmetadata : c.connectorMetadata = some metadata) {op : LoadOp} (hloads : metadata.loads = [op])
    {t : DictKVTransfer} (htransfer : c.transfer = some t) {clock : Nat → Time} {cid : String}
    {matched : Nat} {store : CPUBackend}
    (hread : (c.engine.load op.cacheId (some op.numChunks) 0 (clock 0)).1 =
      (loadLoop cid 0 (List.range matched) store).1) :
    (c.startLoadKv clock).1 = .ok () ↔ t.blockSize ∣ t.chunkSize ∧
      ∀ index : Nat, index < matched → (store.resident ⟨cid, index, 0⟩).isSome := by
  simp only [startLoadKv_single hmetadata hloads htransfer, hread, ← loadLoop_isOk_iff]
  cases (loadLoop cid 0 (List.range matched) store).1 with
  | error err => simp
  | ok payloads => simp [DictKVTransfer.loadInto_ok_iff]

/-- After any run, `start_load_kv` does not raise for a request that was
promised tokens exactly when its load is honourable. -/
theorem honoured_iff (start : ExplicitLMCacheConnector CPUBackend)
    (hempty : start.engine.descriptors = ∅) (ops : List ConnectorOp) (request : Request)
    (blocks : Blocks) (readings : Readings)
    (h : Scheduled blake2b ((Runs.machine blake2b CPUBackend).exec start ops) request readings) :
    (serve blake2b ((Runs.machine blake2b CPUBackend).exec start ops) request blocks 0 readings).1 =
        .ok () ↔
      Honourable blake2b ((Runs.machine blake2b CPUBackend).exec start ops) request := by
  have hreach : (ExplicitKVCache.machine blake2b CPUBackend).Reaches start.engine
      ((Runs.machine blake2b CPUBackend).exec start ops).engine := reaches_run start ops
  generalize (Runs.machine blake2b CPUBackend).exec start ops = c at h hreach
  obtain ⟨external, hpos, hpromised⟩ := h.promised
  obtain ⟨cid, d, matched, hcid, hd, hfound, hmatched, hexternal⟩ :=
    exists_of_promised hpos hpromised
  obtain ⟨hle, hceil⟩ := ceil_of_matched hempty hreach hd hmatched
  generalize hn : (if matched = d.numChunks then d.numTokens else matched * d.chunkSize) = n
    at hexternal hceil
  have hnpos : 0 < n := by omega
  have hlive := h.unexpired cid d hd hfound
  have hloaded := hlive readings.loaded (by simp)
  obtain ⟨bound, metadata, hserve, hengine, htransfer, hmetadata, hloads⟩ :=
    serve_eq_startLoadKv hcid h.noLoads hd hmatched hfound (hlive readings.looked (by simp))
      (hlive readings.staged (by simp)) (hn.trans (Nat.zero_add n).symm) hnpos blocks
  rw [Nat.cast_zero] at hserve
  rw [hserve]
  cases ht : c.transfer with
  | none =>
      rw [ht] at htransfer
      simp [ExplicitLMCacheConnector.startLoadKv, hmetadata, htransfer, Honourable, ht]
  | some t =>
      let d₁ : CacheDescriptor := { d with hits := d.hits + 1, lastUsedAt := some readings.stamp }
      have hloaded₁ : d₁.isExpired none readings.loaded = false := hloaded
      have hread : (bound.engine.load cid (some (ceilDiv n c.engine.chunkSize)) 0
          readings.loaded).1 = (loadLoop cid 0 (List.range matched) c.engine.store).1 := by
        rw [hengine, ceilDiv_eq _ _ c.engine.chunkSize_pos, hceil]
        exact load_of_live (lookup_publish_self c.engine cid d₁) hloaded₁ hle 0
      rw [startLoadKv_ok_iff hmetadata hloads (htransfer.trans ht) hread]
      constructor
      · rintro ⟨hdvd, hstored⟩ t' ht'
        obtain rfl := Option.some.inj (ht.symm.trans ht')
        refine ⟨hdvd, fun cid' d' matched' hcid' hd' hmatched' => ?_⟩
        obtain rfl := Option.some.inj (hcid.symm.trans hcid')
        obtain rfl := Option.some.inj (hd.symm.trans hd')
        obtain rfl := Except.ok.inj (hmatched.symm.trans hmatched')
        exact hstored
      · intro hhonourable
        obtain ⟨hdvd, hstored⟩ := hhonourable t ht
        exact ⟨hdvd, hstored cid d matched hcid hd hmatched⟩

/-- A connector over an in-memory store of this capacity. -/
def emptyConnector (capacityBytes : Option Nat) : ExplicitLMCacheConnector CPUBackend where
  engine := ⟨{ capacityBytes := capacityBytes }, 2, Nat.two_pos, none, ∅⟩
  transfer := some { blockSize := 2, blockSize_pos := Nat.two_pos, chunkSize := 2 }

def registering (tokens : List Int) (payloads : Payloads) (cacheId : String) : ConnectorOp :=
  .engine (.register ⟨tokens, payloads, some cacheId, none, false, none⟩ "new" 0)

def shortRequest : Request where
  requestId := some "r"
  promptTokenIds := some [1, 2]
  kvTransferParams := { cacheId := some "kb" }

theorem noneExpires_at_zero (e : ExplicitKVCache CPUBackend) : NoneExpires e ⟨0, 0, 0, 0, 0⟩ := by
  intro cid d _ hlive reading hreading
  have hzero : reading = 0 := by simpa using hreading
  rw [hzero]
  exact hlive

theorem honoured_iff_short :
    let c := (Runs.machine sampleDigest CPUBackend).exec (emptyConnector none)
      [registering [1, 2] (.sequence [.ofBytes [7]]) "kb"]
    (serve sampleDigest c shortRequest (.ids [5]) 0 ⟨0, 0, 0, 0, 0⟩).1 = .ok () ↔
      Honourable sampleDigest c shortRequest :=
  honoured_iff (emptyConnector none) rfl _ shortRequest (.ids [5]) ⟨0, 0, 0, 0, 0⟩
    ⟨rfl, rfl, ⟨2, by decide, by decide +kernel⟩, noneExpires_at_zero _⟩

/-- The second registration evicts the chunk of the first one, and the request
is promised its two tokens all the same. -/
theorem promised_after_eviction :
    let c := (Runs.machine sampleDigest CPUBackend).exec (emptyConnector (some 1))
      [registering [1, 2] (.sequence [.ofBytes [7]]) "kb",
        registering [3] (.sequence [.ofBytes [9]]) "other"]
    Scheduled sampleDigest c shortRequest ⟨0, 0, 0, 0, 0⟩ ∧
      (serve sampleDigest c shortRequest (.ids [5]) 0 ⟨0, 0, 0, 0, 0⟩).1 =
        .error (.cacheMismatch "kb" 0 0) := by
  intro c
  refine ⟨⟨rfl, rfl, ⟨2, by decide, by decide +kernel⟩, noneExpires_at_zero _⟩, ?_⟩
  decide +kernel

/-- The same without eviction, when only worker 1 is registered. -/
example :
    let c := (Runs.machine sampleDigest CPUBackend).exec (emptyConnector none)
      [registering [1, 2] (.mapping (OrderedDict.setItem ∅ 1 [.ofBytes [7]])) "kb"]
    (serve sampleDigest c shortRequest (.ids [5]) 0 ⟨0, 0, 0, 0, 0⟩).1 =
      .error (.cacheMismatch "kb" 0 0) := by
  decide +kernel

end LlmCache.Connectors.Honoured
