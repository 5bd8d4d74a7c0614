import LlmCache.Connectors.Vllm
import LlmCache.Engine.Descriptors

/-!
# Runs of a connector

The calls of the scheduler and the worker, mixed with calls of the engine that
the connector holds.  What a connector call does to the engine, a run of engine
calls does too, so what holds of every run of the engine holds here.
-/

namespace LlmCache.Connectors.Runs

open Errors Lib Payload LlmCache.Types Store Engine ExplicitKVCache Descriptors Transfer Vllm

/-- One call of a connector or of its engine. -/
inductive ConnectorOp where
  | engine (op : EngineOp)
  | getNumNewMatchedTokens (request : Request) (numComputedTokens : Int)
      (clock clock' stamp : Time)
  | updateStateAfterAlloc (request : Request) (blocks : Blocks) (numExternalTokens : Int)
      (clock : Time)
  | buildConnectorMeta
  | bindConnectorMetadata (metadata : ExplicitConnectorMetadata)
  | clearConnectorMetadata
  | startLoadKv (clock : Nat → Time)
  | waitForSave (clock : Nat → Time)

/-- What a call that does not raise returns. -/
inductive ConnectorReply where
  | done
  | engine (reply : EngineReply)
  | matched (tokens : Int × Bool)
  | metadata (metadata : ExplicitConnectorMetadata)

section Machine

variable {σ : Type} [StorageBackend σ] (blake2b : List UInt8 → String)

def step (c : ExplicitLMCacheConnector σ) :
    ConnectorOp → Except Raised ConnectorReply × ExplicitLMCacheConnector σ
  | .engine op =>
      ((ExplicitKVCache.step blake2b c.engine op).1.map .engine,
        { c with engine := (ExplicitKVCache.step blake2b c.engine op).2 })
  | .getNumNewMatchedTokens request numComputedTokens clock clock' stamp =>
      let out := c.getNumNewMatchedTokens blake2b request numComputedTokens clock clock' stamp
      (out.1.map .matched, out.2)
  | .updateStateAfterAlloc request blocks numExternalTokens clock =>
      (.ok .done, c.updateStateAfterAlloc request blocks numExternalTokens clock)
  | .buildConnectorMeta => (.ok (.metadata c.buildConnectorMeta.1), c.buildConnectorMeta.2)
  | .bindConnectorMetadata metadata => (.ok .done, c.bindConnectorMetadata metadata)
  | .clearConnectorMetadata => (.ok .done, c.clearConnectorMetadata)
  | .startLoadKv clock => ((c.startLoadKv clock).1.map fun _ => .done, (c.startLoadKv clock).2)
  | .waitForSave clock =>
      ((c.waitForSave blake2b clock).1.map fun _ => .done, (c.waitForSave blake2b clock).2)

/-- A connector and its engine, driven by their clients. -/
def machine (σ : Type) [StorageBackend σ] :
    Machine (ExplicitLMCacheConnector σ) ConnectorOp Raised ConnectorReply where
  step := step blake2b

end Machine

variable {σ : Type} [StorageBackend σ] {blake2b : List UInt8 → String}

/-! ## What the engine goes through -/

theorem reaches_putChunks (pin : Bool) (puts : List (ChunkKey × KVPayload))
    (e : ExplicitKVCache σ) :
    (ExplicitKVCache.machine blake2b σ).Reaches e
      { e with store := (putChunks pin puts e.store).2 } := by
  induction puts generalizing e with
  | nil => exact .refl _ e
  | cons chunk rest ih =>
      obtain ⟨⟨cid, index, worker⟩, payload⟩ := chunk
      have hput : (ExplicitKVCache.machine blake2b σ).Reaches e _ :=
        .step _ e (.putChunk cid index payload worker pin)
      simp only [putChunks]
      cases (KeyedStore.put e.store ⟨cid, index, worker⟩ payload pin).1 with
      | error err => exact hput
      | ok _ => exact hput.trans (ih _)

theorem reaches_loadOps (ops : List LoadOp) (clock : Nat → Time) (e : ExplicitKVCache σ)
    (t : DictKVTransfer) :
    (ExplicitKVCache.machine blake2b σ).Reaches e (loadOps ops clock e t).2.1 := by
  induction ops generalizing clock e t with
  | nil => exact .refl _ e
  | cons op rest ih =>
      have hload : (ExplicitKVCache.machine blake2b σ).Reaches e _ :=
        .step _ e (.load op.cacheId (some op.numChunks) 0 (clock 0))
      simp only [loadOps]
      cases (e.load op.cacheId (some op.numChunks) 0 (clock 0)).1 with
      | error err => exact hload
      | ok payloads =>
          simp only
          cases (t.loadInto op.blockIds payloads).1 with
          | error err => exact hload
          | ok _ => exact hload.trans (ih _ _ _)

theorem reaches_saveOps (ops : List SaveOp) (clock : Nat → Time) (e : ExplicitKVCache σ)
    (t : DictKVTransfer) :
    (ExplicitKVCache.machine blake2b σ).Reaches e (saveOps blake2b ops clock e t).2 := by
  induction ops generalizing clock e with
  | nil => exact .refl _ e
  | cons op rest ih =>
      simp only [saveOps]
      cases t.saveFrom op.blockIds _ with
      | error err => exact .refl _ e
      | ok payloads =>
          have hputs : (ExplicitKVCache.machine blake2b σ).Reaches e _ :=
            reaches_putChunks op.pin
              (payloads.zipIdx.map fun chunk => (⟨op.cacheId, chunk.2, 0⟩, chunk.1)) e
          simp only
          cases (putChunks op.pin _ e.store).1 with
          | error err => exact hputs
          | ok _ =>
              have hcommit := hputs.trans (.step _ _ (.commit
                { cacheId := op.cacheId, tokenIds := op.tokenIds, numLayers := t.numLayers,
                  ttl := op.ttl, pin := op.pin, name := op.name } (clock 0)))
              simp only
              cases (ExplicitKVCache.commit blake2b _ _ (clock 0)).1 with
              | error err => exact hcommit
              | ok _ => exact hcommit.trans (ih _ _)

theorem reaches_stageLoad (c : ExplicitLMCacheConnector σ) (request : Request) (cid : String)
    (blockIds : List Int) (external : Int) (clock : Time) :
    (ExplicitKVCache.machine blake2b σ).Reaches c.engine
      (c.stageLoad request cid blockIds external clock).engine := by
  have hfound : (ExplicitKVCache.machine blake2b σ).Reaches c.engine _ :=
    .step _ c.engine (.exists cid clock)
  simp only [ExplicitLMCacheConnector.stageLoad]
  split_ifs <;> exact hfound

theorem reaches_step (c : ExplicitLMCacheConnector σ) (op : ConnectorOp) :
    (ExplicitKVCache.machine blake2b σ).Reaches c.engine (step blake2b c op).2.engine := by
  cases op with
  | engine op => exact .step _ c.engine op
  | getNumNewMatchedTokens request computed clock clock' stamp =>
      simp only [step, ExplicitLMCacheConnector.getNumNewMatchedTokens]
      cases namedCache request.kvTransferParams with
      | none => exact .refl _ _
      | some cid =>
          have hfound : (ExplicitKVCache.machine blake2b σ).Reaches c.engine _ :=
            .step _ c.engine (.exists cid clock)
          simp only
          split_ifs
          · exact hfound
          · exact hfound.trans
              (.step _ _ (EngineOp.lookup cid (promptTokens request) clock' stamp))
  | updateStateAfterAlloc request blocks external clock =>
      simp only [step, ExplicitLMCacheConnector.updateStateAfterAlloc]
      cases namedCache request.kvTransferParams with
      | none => exact .refl _ _
      | some cid =>
          simp only
          rw [(ExplicitLMCacheConnector.stageSave_frame _ request cid (extractBlockIds blocks)).1]
          split_ifs
          · exact reaches_stageLoad c request cid (extractBlockIds blocks) external clock
          · exact .refl _ _
  | buildConnectorMeta => exact .refl _ _
  | bindConnectorMetadata => exact .refl _ _
  | clearConnectorMetadata => exact .refl _ _
  | startLoadKv clock =>
      simp only [step, ExplicitLMCacheConnector.startLoadKv]
      cases c.connectorMetadata with
      | none => exact .refl _ _
      | some metadata =>
          cases c.transfer with
          | none => exact .refl _ _
          | some t => exact reaches_loadOps metadata.loads clock c.engine t
  | waitForSave clock =>
      simp only [step, ExplicitLMCacheConnector.waitForSave]
      cases c.connectorMetadata with
      | none => exact .refl _ _
      | some metadata =>
          cases c.transfer with
          | none => exact .refl _ _
          | some t => exact reaches_saveOps metadata.saves clock c.engine t

/-- The engine of a connector only goes where its own calls can lead it. -/
theorem reaches_run (c : ExplicitLMCacheConnector σ) (ops : List ConnectorOp) :
    (ExplicitKVCache.machine blake2b σ).Reaches c.engine
      ((machine blake2b σ).exec c ops).engine :=
  Machine.reaches_component _ (machine blake2b σ) reaches_step c ops

end LlmCache.Connectors.Runs
