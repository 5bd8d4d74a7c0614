import LlmCache.Connectors.Vllm
import LlmCache.Engine.Chunks
import LlmCache.Engine.Prefix

/-!
# The loads of one batch

`start_load_kv` carries out the loads of all requests of a batch one after
another, and the first one that raises ends the loop.  So a load is served
exactly when its own cache and those of all loads listed before it are there.
-/

namespace LlmCache.Connectors.Batch

open Errors Lib Payload LlmCache.Types Store Engine ExplicitKVCache Chunks Prefix Transfer Vllm

/-- A store whose `get` shows its content and leaves it. -/
class ReadsContent (σ : Type) [StorageBackend σ] where
  content : σ → ChunkKey → Option KVPayload
  get_ok : ∀ (store : σ) key, (KeyedStore.get store key).1 = .ok (content store key)
  content_get : ∀ (store : σ) key, content (KeyedStore.get store key).2 = content store

instance : ReadsContent CPUBackend where
  content := CPUBackend.resident
  get_ok store key := congrArg Except.ok (store.get_fst key)
  content_get store key := funext (store.resident_get key)

instance {σ : Type} [LosslessBackend σ] : ReadsContent σ where
  content := LosslessStore.view
  get_ok := LosslessStore.get_ok
  content_get := LosslessStore.view_get

open ReadsContent (content)

variable {σ : Type} [StorageBackend σ] [ReadsContent σ]

/-- The cache of the load is live and the chunks that the load takes are all in
the store; these are their payloads. -/
def Available (e : ExplicitKVCache σ) (op : LoadOp) (clock : Time) (payloads : List KVPayload) :
    Prop :=
  ∃ d, e.descriptors.lookup op.cacheId = some d ∧ d.isExpired none clock = false ∧
    payloads.map some = (List.range (min op.numChunks d.numChunks).toNat).map
      fun idx : Nat => content e.store ⟨op.cacheId, idx, 0⟩

/-- Chunks are made of whole blocks, and the blocks of the load hold what
writing the payloads into them leaves there. -/
def Placed (t : DictKVTransfer) (op : LoadOp) (payloads : List KVPayload)
    (after : DictKVTransfer) : Prop :=
  t.blockSize ∣ t.chunkSize ∧ ∀ blk ∈ op.blockIds,
    after.blocks.lookup blk = (t.loadInto op.blockIds payloads).2.blocks.lookup blk

/-- Every load whose cache is live and complete gets its chunks into its
blocks, however `start_load_kv` ends. -/
def ServesAvailable (c : ExplicitLMCacheConnector σ) (loads : List LoadOp) (t : DictKVTransfer)
    (clock : Nat → Time) : Prop :=
  ∀ i op payloads, loads[i]? = some op → Available c.engine op (clock i) payloads →
    ∃ after, (c.startLoadKv clock).2.transfer = some after ∧ Placed t op payloads after

/-- The caches of all loads listed before the `i`-th are live and complete. -/
def NoneMissingBefore (e : ExplicitKVCache σ) (loads : List LoadOp) (clock : Nat → Time)
    (i : Nat) : Prop :=
  ∀ j < i, ∀ op, loads[j]? = some op → ∃ payloads, Available e op (clock j) payloads

/-! ## One load -/

theorem load_ok_iff (e : ExplicitKVCache σ) (op : LoadOp) (clock : Time)
    (payloads : List KVPayload) :
    (e.load op.cacheId (some op.numChunks) 0 clock).1 = .ok payloads ↔
      Available e op clock payloads := by
  have hloop := loadLoop_ok_iff_content (σ := σ) ReadsContent.get_ok
    (fun store key k => congrFun (ReadsContent.content_get store key) k) op.cacheId 0
  rw [ExplicitKVCache.load, Available]
  rcases Descriptors.liveDescriptor_cases e op.cacheId clock with
    ⟨hd, hres⟩ | ⟨d, hd, ⟨hexpired, hres⟩ | ⟨hlive, hres⟩⟩
  · simp [hres, hd]
  · simp [hres, hd, hexpired]
  · simp only [hres, hd, hlive, hloop, Option.some.injEq, exists_eq_left', true_and]
    rw [eq_comm, ← List.forall₂_eq_eq_eq, List.forall₂_map_left_iff, List.forall₂_map_right_iff]

theorem available_of_load {e : ExplicitKVCache σ} {op : LoadOp} {clock : Time}
    {payloads : List KVPayload}
    (h : (e.load op.cacheId (some op.numChunks) 0 clock).1 = .ok payloads) :
    Available (e.load op.cacheId (some op.numChunks) 0 clock).2 = Available e := by
  have hkept : (e.load op.cacheId (some op.numChunks) 0 clock).2.descriptors = e.descriptors ∧
      content (e.load op.cacheId (some op.numChunks) 0 clock).2.store = content e.store := by
    unfold ExplicitKVCache.load at h ⊢
    rcases Descriptors.liveDescriptor_cases e op.cacheId clock with
      ⟨_, hres⟩ | ⟨d, _, ⟨_, hres⟩ | ⟨_, hres⟩⟩
    · simp [hres] at h
    · simp [hres] at h
    · simp only [hres, true_and]
      exact loadLoop_frame ReadsContent.content_get op.cacheId 0 _ e.store
  funext op' clock' payloads'
  rw [Available, Available, hkept.1, hkept.2]

/-! ## The loop -/

section Loop

variable {e : ExplicitKVCache σ} {t : DictKVTransfer} {op : LoadOp} {rest : List LoadOp}
  {clock : Nat → Time}

omit [ReadsContent σ] in
theorem loadOps_of_error {err : Raised}
    (h : (e.load op.cacheId (some op.numChunks) 0 (clock 0)).1 = .error err) :
    (loadOps (op :: rest) clock e t).2.2 = t := by
  simp only [loadOps, h]

omit [ReadsContent σ] in
theorem loadOps_of_ok (hdvd : t.blockSize ∣ t.chunkSize) {payloads : List KVPayload}
    (h : (e.load op.cacheId (some op.numChunks) 0 (clock 0)).1 = .ok payloads) :
    (loadOps (op :: rest) clock e t).2.2 =
      (loadOps rest (fun i => clock (i + 1))
        (e.load op.cacheId (some op.numChunks) 0 (clock 0)).2
        (t.loadInto op.blockIds payloads).2).2.2 := by
  simp only [loadOps, h, DictKVTransfer.loadInto_fst_of_dvd hdvd]

/-- Past a load that is served, the loads before count as those before in the rest. -/
theorem noneMissingBefore_succ {payloads : List KVPayload} {i : Nat}
    (h : (e.load op.cacheId (some op.numChunks) 0 (clock 0)).1 = .ok payloads) :
    NoneMissingBefore e (op :: rest) clock (i + 1) ↔
      NoneMissingBefore (e.load op.cacheId (some op.numChunks) 0 (clock 0)).2 rest
        (fun i => clock (i + 1)) i := by
  have hsame := available_of_load h
  simp only [NoneMissingBefore, hsame]
  constructor
  · intro hall j hj op' hop'
    exact hall (j + 1) (by omega) op' hop'
  · intro hall j hj op' hop'
    cases j with
    | zero =>
        obtain rfl := Option.some.inj hop'
        exact ⟨payloads, (load_ok_iff ..).mp h⟩
    | succ j => exact hall j (by omega) op' hop'

theorem dvd_loadInto (hdvd : t.blockSize ∣ t.chunkSize) (blockIds : List Int)
    (payloads : List KVPayload) :
    (t.loadInto blockIds payloads).2.blockSize ∣ (t.loadInto blockIds payloads).2.chunkSize := by
  have hsizes := @DictKVTransfer.loadInto_sizes blockIds t payloads
  rwa [hsizes.1, hsizes.2]

omit [ReadsContent σ] in
theorem lookup_loadOps_of_not_mem (hdvd : t.blockSize ∣ t.chunkSize) {loads : List LoadOp}
    {blk : Int} (hblk : ∀ op ∈ loads, blk ∉ op.blockIds) :
    (loadOps loads clock e t).2.2.blocks.lookup blk = t.blocks.lookup blk := by
  induction loads generalizing clock e t with
  | nil => rfl
  | cons op rest ih =>
      cases hload : (e.load op.cacheId (some op.numChunks) 0 (clock 0)).1 with
      | error err => rw [loadOps_of_error hload]
      | ok payloads =>
          rw [loadOps_of_ok hdvd hload, ih (dvd_loadInto hdvd _ _)
            fun op' hop' => hblk op' (List.mem_cons_of_mem _ hop')]
          exact t.lookup_loadInto_of_not_mem (hblk op (List.mem_cons_self ..)) payloads

variable {loads : List LoadOp} {payloads : List KVPayload} {i : Nat} {blk : Int}

theorem lookup_loadOps_of_reached (hdvd : t.blockSize ∣ t.chunkSize)
    (hdisjoint : loads.Pairwise fun a b => a.blockIds.Disjoint b.blockIds)
    (hop : loads[i]? = some op) (havailable : Available e op (clock i) payloads)
    (hreached : NoneMissingBefore e loads clock i) (hblk : blk ∈ op.blockIds) :
    (loadOps loads clock e t).2.2.blocks.lookup blk =
      (t.loadInto op.blockIds payloads).2.blocks.lookup blk := by
  induction loads generalizing clock e t i with
  | nil => cases hop
  | cons first rest ih =>
      obtain ⟨hfirst, hrest⟩ := List.pairwise_cons.mp hdisjoint
      cases i with
      | zero =>
          obtain rfl := Option.some.inj hop
          rw [loadOps_of_ok hdvd ((load_ok_iff ..).mpr havailable)]
          apply lookup_loadOps_of_not_mem (dvd_loadInto hdvd _ _)
          exact fun op' hop' hmem => hfirst op' hop' hblk hmem
      | succ i =>
          obtain ⟨payloads₀, havailable₀⟩ := hreached 0 (Nat.succ_pos i) first rfl
          have hload := (load_ok_iff e first (clock 0) payloads₀).mpr havailable₀
          have hother : blk ∉ first.blockIds :=
            fun hmem => hfirst op (List.mem_of_getElem? hop) hmem hblk
          rw [loadOps_of_ok hdvd hload, ih (dvd_loadInto hdvd _ _) hrest hop
            (by rwa [available_of_load hload]) ((noneMissingBefore_succ hload).mp hreached)]
          apply DictKVTransfer.lookup_loadInto_congr (t.loadInto_sizes payloads₀).1
            (t.loadInto_sizes payloads₀).2
          exact t.lookup_loadInto_of_not_mem hother payloads₀

theorem lookup_loadOps_of_not_reached (hdvd : t.blockSize ∣ t.chunkSize)
    (hdisjoint : loads.Pairwise fun a b => a.blockIds.Disjoint b.blockIds)
    (hop : loads[i]? = some op) (hreached : ¬NoneMissingBefore e loads clock i)
    (hblk : blk ∈ op.blockIds) :
    (loadOps loads clock e t).2.2.blocks.lookup blk = t.blocks.lookup blk := by
  induction loads generalizing clock e t i with
  | nil => cases hop
  | cons first rest ih =>
      obtain ⟨hfirst, hrest⟩ := List.pairwise_cons.mp hdisjoint
      cases hload : (e.load first.cacheId (some first.numChunks) 0 (clock 0)).1 with
      | error err => rw [loadOps_of_error hload]
      | ok payloads₀ =>
          cases i with
          | zero => exact absurd (fun j hj => absurd hj (Nat.not_lt_zero j)) hreached
          | succ i =>
              have hother : blk ∉ first.blockIds :=
                fun hmem => hfirst op (List.mem_of_getElem? hop) hmem hblk
              rw [loadOps_of_ok hdvd hload, ih (dvd_loadInto hdvd _ _) hrest hop
                fun h => hreached ((noneMissingBefore_succ hload).mpr h)]
              exact t.lookup_loadInto_of_not_mem hother payloads₀

end Loop

/-! ## The batch -/

/-- Every load whose cache is live and complete is served exactly when chunks
are made of whole blocks and, for each such load, no cache of a load listed
before it is missing, or its blocks hold the chunks already. -/
theorem servesAvailable_iff (c : ExplicitLMCacheConnector σ)
    (metadata : ExplicitConnectorMetadata) (hmetadata : c.connectorMetadata = some metadata)
    (t : DictKVTransfer) (htransfer : c.transfer = some t)
    (hdisjoint : metadata.loads.Pairwise fun a b => a.blockIds.Disjoint b.blockIds)
    (clock : Nat → Time) :
    ServesAvailable c metadata.loads t clock ↔
      ∀ i op payloads, metadata.loads[i]? = some op → Available c.engine op (clock i) payloads →
        t.blockSize ∣ t.chunkSize ∧
          (NoneMissingBefore c.engine metadata.loads clock i ∨ Placed t op payloads t) := by
  have hafter : (c.startLoadKv clock).2.transfer =
      some (loadOps metadata.loads clock c.engine t).2.2 := by
    simp only [ExplicitLMCacheConnector.startLoadKv, hmetadata, htransfer]
  simp only [ServesAvailable, hafter, Option.some.injEq, exists_eq_left']
  constructor
  · intro hserves i op payloads hop havailable
    obtain ⟨hdvd, hblocks⟩ := hserves i op payloads hop havailable
    refine ⟨hdvd, ?_⟩
    by_cases hreached : NoneMissingBefore c.engine metadata.loads clock i
    · exact .inl hreached
    · refine .inr ⟨hdvd, fun blk hblk => ?_⟩
      rw [← hblocks blk hblk, lookup_loadOps_of_not_reached hdvd hdisjoint hop hreached hblk]
  · intro hmeets i op payloads hop havailable
    obtain ⟨hdvd, hcase⟩ := hmeets i op payloads hop havailable
    refine ⟨hdvd, fun blk hblk => ?_⟩
    by_cases hreached : NoneMissingBefore c.engine metadata.loads clock i
    · exact lookup_loadOps_of_reached hdvd hdisjoint hop havailable hreached hblk
    · rw [lookup_loadOps_of_not_reached hdvd hdisjoint hop hreached hblk]
      exact (hcase.resolve_left hreached).2 blk hblk

def sampleLoads : List LoadOp :=
  [⟨some "r", "a", [10], 1⟩, ⟨some "q", "b", [11], 1⟩]

/-- A connector over an engine where one chunk is registered under `a` and one
under `b`, with a load for each. -/
def sampleConnector : ExplicitLMCacheConnector CPUBackend :=
  let s : ExplicitKVCache CPUBackend := ⟨{}, 2, Nat.two_pos, none, ∅⟩
  { engine := (machine sampleDigest CPUBackend).exec s
      [.register ⟨[1, 2], .sequence [.ofBytes [7, 7]], some "a", none, false, none⟩ "new" 0,
        .register ⟨[3], .sequence [.ofBytes [9, 9]], some "b", none, false, none⟩ "new" 0]
    transfer := some { blockSize := 2, blockSize_pos := Nat.two_pos, chunkSize := 2 }
    connectorMetadata := some { loads := sampleLoads } }

theorem servesAvailable_iff_sample :
    ServesAvailable sampleConnector sampleLoads { blockSize := 2, chunkSize := 2 } (fun _ => 0) ↔
      ∀ (i : Nat) (op : LoadOp) payloads, sampleLoads[i]? = some op →
        Available sampleConnector.engine op 0 payloads →
        2 ∣ 2 ∧ (NoneMissingBefore sampleConnector.engine sampleLoads (fun _ => 0) i ∨
          Placed { blockSize := 2, chunkSize := 2 } op payloads
            { blockSize := 2, chunkSize := 2 }) :=
  servesAvailable_iff sampleConnector { loads := sampleLoads } rfl
    { blockSize := 2, chunkSize := 2 } rfl (by simp [sampleLoads]) fun _ => 0

/-- The cache of the first load has been deleted: the loop ends there, and the
block of the second load stays empty. -/
theorem deleted_cache_starves_batch :
    let c := { sampleConnector with engine := sampleConnector.engine.delete "a" }
    (sampleLoads.Pairwise fun a b => a.blockIds.Disjoint b.blockIds) ∧
      ¬ServesAvailable c sampleLoads { blockSize := 2, chunkSize := 2 } fun _ => 0 := by
  intro c
  refine ⟨by simp [sampleLoads], fun hserves => ?_⟩
  have hload : (c.engine.load "b" (some 1) 0 0).1 = .ok [.ofBytes [9, 9]] := by decide +kernel
  obtain ⟨after, hafter, _, hblocks⟩ := hserves 1 ⟨some "q", "b", [11], 1⟩ [.ofBytes [9, 9]] rfl
    ((load_ok_iff c.engine ⟨some "q", "b", [11], 1⟩ 0 [.ofBytes [9, 9]]).mp hload)
  have hempty : (c.startLoadKv fun _ => 0).2.transfer.map (·.blocks.lookup 11) = some none := by
    decide +kernel
  have hblock := hblocks 11 (by decide)
  rw [hafter, Option.map_some, hblock] at hempty
  revert hempty
  decide +kernel

end LlmCache.Connectors.Batch
