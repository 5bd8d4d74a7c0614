import LlmCache.Connectors.Transfer
import LlmCache.Engine

/-!
# The vLLM connector

The scheduler side decides how many tokens a request may reuse and stages a
load or a save for it; the worker side carries out what the metadata lists.
Clock readings are arguments, as for the engine.
-/

namespace LlmCache.Connectors.Vllm

open Errors Lib Payload LlmCache.Types Store Engine Transfer

structure LoadOp where
  requestId : Option String
  cacheId : String
  blockIds : List Int
  numChunks : Int

structure SaveOp where
  requestId : Option String
  cacheId : String
  tokenIds : List Int
  blockIds : List Int
  ttl : Option Ttl
  pin : Bool
  name : Option String

structure ExplicitConnectorMetadata where
  loads : List LoadOp := []
  saves : List SaveOp := []

/-- The entries of `kv_transfer_params` that the connector reads. -/
structure TransferParams where
  cacheId : Option String := none
  save : Bool := false
  ttl : Option Ttl := none
  pin : Bool := false
  name : Option String := none

/-- A request; without `kv_transfer_params` every entry is missing. -/
structure Request where
  requestId : Option String
  promptTokenIds : Option (List Int)
  allTokenIds : Option (List Int) := none
  kvTransferParams : TransferParams := {}

/-- What `blocks` may be: nothing, block ids grouped by kv-cache group, or a list. -/
inductive Blocks where
  | missing
  | grouped (groups : List (List Int))
  | ids (blockIds : List Int)

def promptTokens (request : Request) : List Int :=
  (request.promptTokenIds.or request.allTokenIds).getD []

def extractBlockIds : Blocks → List Int
  | .missing => []
  | .grouped [] => []
  | .grouped (group :: _) => group
  | .ids blockIds => blockIds

/-- `params.get("cache_id")`, where an empty id counts as none. -/
def namedCache (params : TransferParams) : Option String :=
  params.cacheId.filter (· ≠ "")

/-- `-(-a // b)`. -/
def ceilDiv (a b : Int) : Int :=
  -(-a).fdiv b

theorem ceilDiv_eq (a b : Nat) (hb : 0 < b) : ceilDiv a b = ((a + b - 1) / b : Nat) := by
  have hle := Nat.div_mul_le_self (a + b - 1) b
  have hlt := Nat.lt_div_mul_add (a := a + b - 1) hb
  generalize (a + b - 1) / b = q at hle hlt ⊢
  have hq : -(q : Int) * b = -((q * b : Nat) : Int) := by rw [Nat.cast_mul, neg_mul]
  have hdiv : -(a : Int) / b = -q := by
    rw [Int.ediv_eq_iff_of_pos (by omega), hq]
    omega
  rw [ceilDiv, Int.fdiv_eq_ediv_of_nonneg _ (by omega), hdiv, neg_neg]

structure ExplicitLMCacheConnector (σ : Type) where
  engine : ExplicitKVCache σ
  transfer : Option DictKVTransfer := none
  pendingLoads : OrderedDict (Option String) LoadOp := ∅
  pendingSaves : OrderedDict (Option String) SaveOp := ∅
  connectorMetadata : Option ExplicitConnectorMetadata := none

/-- The loop of `start_load_kv`; the `i`-th load reads the clock as `clock i`. -/
def loadOps {σ : Type} [StorageBackend σ] : List LoadOp → (Nat → Time) → ExplicitKVCache σ →
    DictKVTransfer → Except Raised Unit × ExplicitKVCache σ × DictKVTransfer
  | [], _, engine, transfer => (.ok (), engine, transfer)
  | op :: rest, clock, engine, transfer =>
      let read := engine.load op.cacheId (some op.numChunks) 0 (clock 0)
      match read.1 with
      | .error err => (.error err, read.2, transfer)
      | .ok payloads =>
          let written := transfer.loadInto op.blockIds payloads
          match written.1 with
          | .error err => (.error err, read.2, written.2)
          | .ok () => loadOps rest (fun i => clock (i + 1)) read.2 written.2

/-- The loop of `wait_for_save`; the `i`-th save reads the clock as `clock i`. -/
def saveOps {σ : Type} [StorageBackend σ] (blake2b : List UInt8 → String) :
    List SaveOp → (Nat → Time) → ExplicitKVCache σ → DictKVTransfer →
    Except Raised Unit × ExplicitKVCache σ
  | [], _, engine, _ => (.ok (), engine)
  | op :: rest, clock, engine, transfer =>
      let numChunks := ceilDiv op.tokenIds.length engine.chunkSize
      match transfer.saveFrom op.blockIds numChunks.toNat with
      | .error err => (.error err, engine)
      | .ok payloads =>
          let puts := payloads.zipIdx.map fun chunk => (⟨op.cacheId, chunk.2, 0⟩, chunk.1)
          let out := ExplicitKVCache.putChunks op.pin puts engine.store
          let stored := { engine with store := out.2 }
          match out.1 with
          | .error err => (.error err, stored)
          | .ok () =>
              let committed := stored.commit blake2b
                { cacheId := op.cacheId, tokenIds := op.tokenIds, numLayers := transfer.numLayers,
                  ttl := op.ttl, pin := op.pin, name := op.name } (clock 0)
              match committed.1 with
              | .error err => (.error err, committed.2)
              | .ok _ => saveOps blake2b rest (fun i => clock (i + 1)) committed.2 transfer

namespace ExplicitLMCacheConnector

variable {σ : Type} [StorageBackend σ]

/-! ## Scheduler side -/

/-- `clock` is read by `exists`, `clock'` and `stamp` by `lookup`. -/
def getNumNewMatchedTokens (blake2b : List UInt8 → String) (c : ExplicitLMCacheConnector σ)
    (request : Request) (numComputedTokens : Int) (clock clock' stamp : Time) :
    Except Raised (Int × Bool) × ExplicitLMCacheConnector σ :=
  match namedCache request.kvTransferParams with
  | none => (.ok (0, false), c)
  | some cacheId =>
      let found := c.engine.exists' cacheId clock
      if !found.1 then (.ok (0, false), { c with engine := found.2 })
      else
        let result := found.2.lookup blake2b cacheId (some (promptTokens request)) clock' stamp
        (result.1.map fun result => (max 0 (result.numTokens - numComputedTokens), false),
          { c with engine := result.2 })

/-- Stage the load of a request whose cache exists. -/
def stageLoad (c : ExplicitLMCacheConnector σ) (request : Request) (cacheId : String)
    (blockIds : List Int) (numExternalTokens : Int) (clock : Time) : ExplicitLMCacheConnector σ :=
  let found := c.engine.exists' cacheId clock
  if found.1 then
    { c with
      engine := found.2
      pendingLoads := OrderedDict.setItem c.pendingLoads request.requestId
        { requestId := request.requestId
          cacheId := cacheId
          blockIds := blockIds
          numChunks := ceilDiv numExternalTokens c.engine.chunkSize } }
  else { c with engine := found.2 }

/-- Stage the save that a request asks for. -/
def stageSave (c : ExplicitLMCacheConnector σ) (request : Request) (cacheId : String)
    (blockIds : List Int) : ExplicitLMCacheConnector σ :=
  let params := request.kvTransferParams
  if params.save then
    { c with
      pendingSaves := OrderedDict.setItem c.pendingSaves request.requestId
        { requestId := request.requestId
          cacheId := cacheId
          tokenIds := promptTokens request
          blockIds := blockIds
          ttl := params.ttl
          pin := params.pin
          name := params.name } }
  else c

def updateStateAfterAlloc (c : ExplicitLMCacheConnector σ) (request : Request) (blocks : Blocks)
    (numExternalTokens : Int) (clock : Time) : ExplicitLMCacheConnector σ :=
  match namedCache request.kvTransferParams with
  | none => c
  | some cacheId =>
      let blockIds := extractBlockIds blocks
      let staged :=
        if numExternalTokens > 0 then
          c.stageLoad request cacheId blockIds numExternalTokens clock
        else c
      staged.stageSave request cacheId blockIds

def buildConnectorMeta (c : ExplicitLMCacheConnector σ) :
    ExplicitConnectorMetadata × ExplicitLMCacheConnector σ :=
  ({ loads := OrderedDict.values c.pendingLoads, saves := OrderedDict.values c.pendingSaves },
    { c with pendingLoads := ∅, pendingSaves := ∅ })

def bindConnectorMetadata (c : ExplicitLMCacheConnector σ)
    (metadata : ExplicitConnectorMetadata) : ExplicitLMCacheConnector σ :=
  { c with connectorMetadata := some metadata }

def clearConnectorMetadata (c : ExplicitLMCacheConnector σ) : ExplicitLMCacheConnector σ :=
  { c with connectorMetadata := none }

/-! ## Worker side -/

def startLoadKv (c : ExplicitLMCacheConnector σ) (clock : Nat → Time) :
    Except Raised Unit × ExplicitLMCacheConnector σ :=
  match c.connectorMetadata, c.transfer with
  | some metadata, some transfer =>
      let out := loadOps metadata.loads clock c.engine transfer
      (out.1, { c with engine := out.2.1, transfer := some out.2.2 })
  | _, _ => (.ok (), c)

def waitForSave (blake2b : List UInt8 → String) (c : ExplicitLMCacheConnector σ)
    (clock : Nat → Time) : Except Raised Unit × ExplicitLMCacheConnector σ :=
  match c.connectorMetadata, c.transfer with
  | some metadata, some transfer =>
      let out := saveOps blake2b metadata.saves clock c.engine transfer
      (out.1, { c with engine := out.2 })
  | _, _ => (.ok (), c)

/-! ## What staging leaves alone -/

omit [StorageBackend σ] in
theorem stageSave_frame (c : ExplicitLMCacheConnector σ) (request : Request)
    (cid : String) (blockIds : List Int) :
    (c.stageSave request cid blockIds).engine = c.engine ∧
      (c.stageSave request cid blockIds).transfer = c.transfer ∧
      (c.stageSave request cid blockIds).pendingLoads = c.pendingLoads := by
  unfold stageSave
  by_cases hsave : request.kvTransferParams.save <;> simp [hsave]

end ExplicitLMCacheConnector

end LlmCache.Connectors.Vllm
