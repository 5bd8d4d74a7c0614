import LlmCache.Connectors.Runs
import LlmCache.Connectors.Sglang
import LlmCache.Engine.Simulation

/-!
# The adapters over one store in place of another

The vLLM connector and the SGLang adapter share an engine and a paged buffer.
Over a store that stands for another one they answer and fill the buffer alike,
until the store raises an error that ends the comparison.
-/

namespace LlmCache.Connectors.Simulation

open Errors Lib Payload LlmCache.Types Store Engine ExplicitKVCache Transfer Vllm Sglang Runs
open Engine.Simulation

variable {σ τ : Type} [StorageBackend σ] [StorageBackend τ] {blake2b : List UInt8 → String}
  {ends : Raised → Prop} {id : String → Prop} {obj : KVPayload → Prop} {R : σ → τ → Prop}

/-- Whatever bytes the transfer finds in the blocks, it may save them. -/
def Carries (obj : KVPayload → Prop) (t : DictKVTransfer) : Prop :=
  ∀ data, obj { data := data, numTokens := t.chunkSize, numLayers := t.numLayers, fmt := "raw" }

theorem Carries.saveFrom {t : DictKVTransfer} (h : Carries obj t) {blockIds : List Int} {n : Nat}
    {payloads : List KVPayload} (hsaved : t.saveFrom blockIds n = .ok payloads) :
    ∀ payload ∈ payloads, obj payload := by
  rw [DictKVTransfer.saveFrom] at hsaved
  cases hbpc : t.blocksPerChunk with
  | error err =>
      rw [hbpc] at hsaved
      cases hsaved
  | ok bpc =>
      rw [hbpc] at hsaved
      obtain rfl := Except.ok.inj hsaved
      intro payload hpayload
      obtain ⟨i, _, rfl⟩ := List.mem_map.mp hpayload
      exact h _

theorem Carries.loadInto {t : DictKVTransfer} (h : Carries obj t) (blockIds : List Int)
    (payloads : List KVPayload) : Carries obj (t.loadInto blockIds payloads).2 := by
  rw [DictKVTransfer.loadInto]
  cases t.blocksPerChunk with
  | error err => exact h
  | ok bpc => exact h

/-! ## The worker's loops -/

section Loops

variable {e : ExplicitKVCache σ} {f : ExplicitKVCache τ} {t : DictKVTransfer}

/-- Related engines beside one paged buffer. -/
def SameBeside (id : String → Prop) (obj : KVPayload → Prop) (R : σ → τ → Prop)
    (x : ExplicitKVCache σ × DictKVTransfer) (y : ExplicitKVCache τ × DictKVTransfer) : Prop :=
  SameEngine id R x.1 y.1 ∧ x.2 = y.2 ∧ Carries obj x.2

theorem loadOps_alike (hst : StandsForIds σ τ ends id obj R) (h : SameEngine id R e f)
    (hcarries : Carries obj t) (ops : List LoadOp) (clock : Nat → Time) :
    EndAlike ends (SameBeside id obj R) (loadOps ops clock e t) (loadOps ops clock f t) := by
  induction ops generalizing e f t clock with
  | nil => exact .of_eq rfl ⟨h, rfl, hcarries⟩
  | cons op rest ih =>
      have hload := load_alike hst h op.cacheId (some op.numChunks) 0 (clock 0)
      simp only [loadOps]
      generalize e.load op.cacheId (some op.numChunks) 0 (clock 0) = out at hload ⊢
      generalize f.load op.cacheId (some op.numChunks) 0 (clock 0) = out' at hload ⊢
      obtain ⟨result, e'⟩ := out
      obtain ⟨result', f'⟩ := out'
      rcases hload with ⟨err, rfl, hends⟩ | ⟨rfl, hnext⟩
      · exact .inl ⟨err, rfl, hends⟩
      · cases result with
        | error err => exact .of_eq rfl ⟨hnext, rfl, hcarries⟩
        | ok payloads =>
            have hwritten := hcarries.loadInto op.blockIds payloads
            simp only
            cases (t.loadInto op.blockIds payloads).1 with
            | error err => exact .of_eq rfl ⟨hnext, rfl, hwritten⟩
            | ok _ => exact ih hnext hwritten _

/-- The chunks of one save. -/
def chunksOf (cid : String) (payloads : List KVPayload) : List (ChunkKey × KVPayload) :=
  payloads.zipIdx.map fun chunk => (⟨cid, chunk.2, 0⟩, chunk.1)

theorem admitted_puts {cid : String} (hid : id cid) {payloads : List KVPayload}
    (hobj : ∀ payload ∈ payloads, obj payload) :
    ∀ chunk ∈ chunksOf cid payloads, id chunk.1.cacheId ∧ obj chunk.2 := by
  intro chunk hchunk
  obtain ⟨⟨payload, i⟩, hindexed, rfl⟩ := List.mem_map.mp hchunk
  exact ⟨hid, hobj payload (List.fst_mem_of_mem_zipIdx hindexed)⟩

/-- The `put_chunk` calls and the `commit` of one save. -/
def saved (blake2b : List UInt8 → String) (pin : Bool) (puts : List (ChunkKey × KVPayload))
    (c : Commit) (now : Time) (e : ExplicitKVCache σ) :
    Except Raised CacheDescriptor × ExplicitKVCache σ :=
  let out := putChunks pin puts e.store
  match out.1 with
  | .error err => (.error err, { e with store := out.2 })
  | .ok () => ExplicitKVCache.commit blake2b { e with store := out.2 } c now

theorem saved_alike (hst : StandsForIds σ τ ends id obj R) (h : SameEngine id R e f) (pin : Bool)
    {puts : List (ChunkKey × KVPayload)} (hputs : ∀ chunk ∈ puts, id chunk.1.cacheId ∧ obj chunk.2)
    {c : Commit} (hid : id c.cacheId) (now : Time) :
    EndAlike ends (SameEngine id R) (saved blake2b pin puts c now e)
      (saved blake2b pin puts c now f) := by
  have hloop := putChunks_alike hst pin hputs h.store
  unfold saved
  generalize putChunks pin puts e.store = out at hloop ⊢
  generalize putChunks pin puts f.store = out' at hloop ⊢
  obtain ⟨result, s⟩ := out
  obtain ⟨result', s'⟩ := out'
  rcases hloop with ⟨err, rfl, hends⟩ | ⟨rfl, hstore⟩
  · exact .inl ⟨err, rfl, hends⟩
  · have hstored := h.withStore hstore
    cases result with
    | error err => exact .of_eq rfl hstored
    | ok _ => exact commit_alike hstored hid now

/-- What a save commits. -/
def SaveOp.commit (op : SaveOp) (t : DictKVTransfer) : Commit :=
  { cacheId := op.cacheId, tokenIds := op.tokenIds, numLayers := t.numLayers, ttl := op.ttl,
    pin := op.pin, name := op.name }

theorem saveOps_cons (op : SaveOp) (rest : List SaveOp) (clock : Nat → Time)
    (e : ExplicitKVCache σ) (t : DictKVTransfer) :
    saveOps blake2b (op :: rest) clock e t =
      match t.saveFrom op.blockIds (ceilDiv op.tokenIds.length e.chunkSize).toNat with
      | .error err => (.error err, e)
      | .ok payloads =>
          let out := saved blake2b op.pin (chunksOf op.cacheId payloads) (SaveOp.commit op t)
            (clock 0) e
          match out.1 with
          | .error err => (.error err, out.2)
          | .ok _ => saveOps blake2b rest (fun i => clock (i + 1)) out.2 t := by
  simp only [saveOps, saved, chunksOf, SaveOp.commit]
  cases t.saveFrom op.blockIds (ceilDiv op.tokenIds.length e.chunkSize).toNat with
  | error err => rfl
  | ok payloads =>
      simp only
      cases (putChunks op.pin (payloads.zipIdx.map fun chunk =>
        ((⟨op.cacheId, chunk.2, 0⟩, chunk.1) : ChunkKey × KVPayload)) e.store).1 <;> rfl

theorem saveOps_alike (hst : StandsForIds σ τ ends id obj R) (h : SameEngine id R e f)
    (hcarries : Carries obj t) {ops : List SaveOp} (hops : ∀ op ∈ ops, id op.cacheId)
    (clock : Nat → Time) :
    EndAlike ends (SameEngine id R) (saveOps blake2b ops clock e t)
      (saveOps blake2b ops clock f t) := by
  induction ops generalizing e f clock with
  | nil => exact .of_eq rfl h
  | cons op rest ih =>
      have hid := hops op (List.mem_cons_self ..)
      rw [saveOps_cons, saveOps_cons, ← h.chunkSize]
      cases hsaved : t.saveFrom op.blockIds (ceilDiv op.tokenIds.length e.chunkSize).toNat with
      | error err => exact .of_eq rfl h
      | ok payloads =>
          have hout : EndAlike ends (SameEngine id R) (saved blake2b op.pin _ _ _ e)
              (saved blake2b op.pin _ _ _ f) :=
            saved_alike hst h op.pin (admitted_puts hid (hcarries.saveFrom hsaved))
              (c := SaveOp.commit op t) hid (clock 0)
          simp only
          generalize saved blake2b op.pin (chunksOf op.cacheId payloads) _ _ e = out at hout ⊢
          generalize saved blake2b op.pin (chunksOf op.cacheId payloads) _ _ f = out' at hout ⊢
          obtain ⟨result, e'⟩ := out
          obtain ⟨result', f'⟩ := out'
          rcases hout with ⟨err, rfl, hends⟩ | ⟨rfl, hnext⟩
          · exact .inl ⟨err, rfl, hends⟩
          · cases result with
            | error err => exact .of_eq rfl hnext
            | ok _ => exact ih hnext (fun o ho => hops o (List.mem_cons_of_mem _ ho)) _

end Loops

/-! ## The adapters -/

/-- A call of the vLLM connector, or of the SGLang adapter over the same engine
and the same paged buffer. -/
inductive AdapterOp where
  | vllm (op : ConnectorOp)
  | store (cacheId : String) (tokenIds blockIds : List Int) (ttl : Option Ttl) (pin : Bool)
      (name : Option String) (clock : Time)
  | retrieve (cacheId : String) (blockIds : List Int) (requestTokens : Option (List Int))
      (clock clock' stamp clock'' : Time)

inductive AdapterReply where
  | vllm (reply : ConnectorReply)
  | stored
  | retrieved (numTokens : Nat)

/-- The SGLang adapter beside the connector. -/
def beside (c : ExplicitLMCacheConnector σ) : SGLangExplicitCache σ :=
  { engine := c.engine, transfer := c.transfer }

def withBeside (c : ExplicitLMCacheConnector σ) (s : SGLangExplicitCache σ) :
    ExplicitLMCacheConnector σ :=
  { c with engine := s.engine, transfer := s.transfer }

def adapters (blake2b : List UInt8 → String) (σ : Type) [StorageBackend σ] :
    Machine (ExplicitLMCacheConnector σ) AdapterOp Raised AdapterReply where
  step c
    | .vllm op => ((Runs.step blake2b c op).1.map .vllm, (Runs.step blake2b c op).2)
    | .store cacheId tokenIds blockIds ttl pin name clock =>
        let out := (beside c).store blake2b cacheId tokenIds blockIds ttl pin name clock
        (out.1.map fun _ => .stored, withBeside c out.2)
    | .retrieve cacheId blockIds requestTokens clock clock' stamp clock'' =>
        let out := (beside c).retrieve blake2b cacheId blockIds requestTokens clock clock' stamp
          clock''
        (out.1.map .retrieved, withBeside c out.2)

/-- The connector with another engine in place of its own. -/
abbrev onEngine (c : ExplicitLMCacheConnector σ) (f : ExplicitKVCache τ) :
    ExplicitLMCacheConnector τ :=
  { engine := f, transfer := c.transfer, pendingLoads := c.pendingLoads,
    pendingSaves := c.pendingSaves, connectorMetadata := c.connectorMetadata }

/-- What the connector is to save has admitted ids and may be stored. -/
structure Saves (id : String → Prop) (obj : KVPayload → Prop) (c : ExplicitLMCacheConnector σ) :
    Prop where
  carries : ∀ t, c.transfer = some t → Carries obj t
  staged : ∀ rid op, c.pendingSaves.lookup rid = some op → id op.cacheId
  bound : ∀ metadata, c.connectorMetadata = some metadata → ∀ op ∈ metadata.saves, id op.cacheId

/-- The same connector over related engines. -/
def SameConnector (id : String → Prop) (obj : KVPayload → Prop) (R : σ → τ → Prop)
    (c : ExplicitLMCacheConnector σ) (d : ExplicitLMCacheConnector τ) : Prop :=
  ∃ f, d = onEngine c f ∧ SameEngine id R c.engine f ∧ Saves id obj c

/-- What the calls ask to store has admitted ids. -/
def Admits (id : String → Prop) (obj : KVPayload → Prop) : AdapterOp → Prop
  | .vllm (.engine op) => Engine.Simulation.Admits id obj op
  | .vllm (.updateStateAfterAlloc request ..) =>
      request.kvTransferParams.save → ∀ cid, namedCache request.kvTransferParams = some cid → id cid
  | .vllm (.bindConnectorMetadata metadata) => ∀ op ∈ metadata.saves, id op.cacheId
  | .store cid .. => id cid
  | _ => True

section Adapters

variable {c : ExplicitLMCacheConnector σ} {d : ExplicitLMCacheConnector τ}

theorem getNumNewMatchedTokens_alike (hst : StandsForIds σ τ ends id obj R)
    (h : SameConnector id obj R c d) (request : Request) (computed : Int)
    (clock clock' stamp : Time) :
    EndAlike ends (SameConnector id obj R)
      (c.getNumNewMatchedTokens blake2b request computed clock clock' stamp)
      (d.getNumNewMatchedTokens blake2b request computed clock clock' stamp) := by
  obtain ⟨f, rfl, h, hsaves⟩ := h
  unfold ExplicitLMCacheConnector.getNumNewMatchedTokens
  cases namedCache request.kvTransferParams with
  | none => exact .of_eq rfl ⟨f, rfl, h, hsaves⟩
  | some cid =>
      obtain ⟨hsame, hnext⟩ := exists_alike hst h cid clock
      simp only
      generalize c.engine.exists' cid clock = found at hsame hnext ⊢
      generalize f.exists' cid clock = found' at hsame hnext ⊢
      obtain ⟨b, e⟩ := found
      obtain ⟨b', f⟩ := found'
      obtain rfl : b = b' := hsame
      cases b with
      | false => exact .of_eq rfl ⟨_, rfl, hnext, hsaves.carries, hsaves.staged, hsaves.bound⟩
      | true =>
          apply (lookup_alike hst hnext cid (some (promptTokens request)) clock' stamp).map
          exact fun hlooked => ⟨_, rfl, hlooked, hsaves.carries, hsaves.staged, hsaves.bound⟩

theorem stageLoad_alike (hst : StandsForIds σ τ ends id obj R) (h : SameConnector id obj R c d)
    (request : Request) (cid : String) (blockIds : List Int) (external : Int) (clock : Time) :
    SameConnector id obj R (c.stageLoad request cid blockIds external clock)
      (d.stageLoad request cid blockIds external clock) := by
  obtain ⟨f, rfl, h, hsaves⟩ := h
  obtain ⟨hsame, hnext⟩ := exists_alike hst h cid clock
  unfold ExplicitLMCacheConnector.stageLoad
  simp only [h.chunkSize]
  generalize c.engine.exists' cid clock = found at hsame hnext ⊢
  generalize f.exists' cid clock = found' at hsame hnext ⊢
  obtain ⟨b, e⟩ := found
  obtain ⟨b', f⟩ := found'
  obtain rfl : b = b' := hsame
  cases b <;>
    exact ⟨_, rfl, hnext, hsaves.carries, hsaves.staged, hsaves.bound⟩

omit [StorageBackend σ] [StorageBackend τ] in
theorem stageSave_alike (h : SameConnector id obj R c d) (request : Request) {cid : String}
    (hid : request.kvTransferParams.save → id cid) (blockIds : List Int) :
    SameConnector id obj R (c.stageSave request cid blockIds)
      (d.stageSave request cid blockIds) := by
  obtain ⟨f, rfl, h, hsaves⟩ := h
  unfold ExplicitLMCacheConnector.stageSave
  simp only
  split_ifs with hsave
  · refine ⟨f, rfl, h, hsaves.carries, ?_, hsaves.bound⟩
    intro rid op hop
    rw [OrderedDict.lookup_setItem] at hop
    split_ifs at hop
    · rw [← Option.some.inj hop]
      exact hid hsave
    · exact hsaves.staged rid op hop
  · exact ⟨f, rfl, h, hsaves⟩

theorem updateStateAfterAlloc_alike (hst : StandsForIds σ τ ends id obj R)
    (h : SameConnector id obj R c d) {request : Request} (hid : request.kvTransferParams.save →
      ∀ cid, namedCache request.kvTransferParams = some cid → id cid) (blocks : Blocks)
    (external : Int) (clock : Time) :
    SameConnector id obj R (c.updateStateAfterAlloc request blocks external clock)
      (d.updateStateAfterAlloc request blocks external clock) := by
  unfold ExplicitLMCacheConnector.updateStateAfterAlloc
  cases hnamed : namedCache request.kvTransferParams with
  | none => exact h
  | some cid =>
      apply stageSave_alike _ _ fun hsave => hid hsave cid hnamed
      split_ifs
      · exact stageLoad_alike hst h request cid _ external clock
      · exact h

theorem startLoadKv_alike (hst : StandsForIds σ τ ends id obj R) (h : SameConnector id obj R c d)
    (clock : Nat → Time) :
    EndAlike ends (SameConnector id obj R) (c.startLoadKv clock) (d.startLoadKv clock) := by
  obtain ⟨f, rfl, h, hsaves⟩ := h
  obtain ⟨e, transfer, loads, saves, bound⟩ := c
  cases bound with
  | none => exact .of_eq rfl ⟨f, rfl, h, hsaves⟩
  | some metadata =>
      cases transfer with
      | none => exact .of_eq rfl ⟨f, rfl, h, hsaves⟩
      | some t =>
          apply (loadOps_alike hst h (hsaves.carries t rfl) metadata.loads clock).around
          rintro ⟨hnext, hbuffer, hcarries⟩
          refine ⟨_, ?_, hnext, ?_, hsaves.staged, hsaves.bound⟩
          · simp only [onEngine, hbuffer]
          · exact fun t' ht' => Option.some.inj ht' ▸ hcarries

theorem waitForSave_alike (hst : StandsForIds σ τ ends id obj R) (h : SameConnector id obj R c d)
    (clock : Nat → Time) :
    EndAlike ends (SameConnector id obj R) (c.waitForSave blake2b clock)
      (d.waitForSave blake2b clock) := by
  obtain ⟨f, rfl, h, hsaves⟩ := h
  obtain ⟨e, transfer, loads, saves, bound⟩ := c
  cases bound with
  | none => exact .of_eq rfl ⟨f, rfl, h, hsaves⟩
  | some metadata =>
      cases transfer with
      | none => exact .of_eq rfl ⟨f, rfl, h, hsaves⟩
      | some t =>
          apply (saveOps_alike hst h (hsaves.carries t rfl) (hsaves.bound metadata rfl)
            clock).around
          exact fun hnext => ⟨_, rfl, hnext, hsaves.carries, hsaves.staged, hsaves.bound⟩

theorem vllm_alike (hst : StandsForIds σ τ ends id obj R) (h : SameConnector id obj R c d)
    {op : ConnectorOp} (hop : Admits id obj (.vllm op)) :
    EndAlike ends (SameConnector id obj R) (Runs.step blake2b c op)
      (Runs.step blake2b d op) := by
  cases op with
  | engine op =>
      obtain ⟨f, rfl, h, hsaves⟩ := h
      apply (step_alike hst h hop).map
      exact fun hnext => ⟨_, rfl, hnext, hsaves.carries, hsaves.staged, hsaves.bound⟩
  | getNumNewMatchedTokens request computed clock clock' stamp =>
      exact (getNumNewMatchedTokens_alike hst h request computed clock clock' stamp).map _
        fun hnext => hnext
  | updateStateAfterAlloc request blocks external clock =>
      exact .of_eq rfl (updateStateAfterAlloc_alike hst h hop blocks external clock)
  | buildConnectorMeta =>
      obtain ⟨f, rfl, h, hsaves⟩ := h
      exact .of_eq rfl ⟨f, rfl, h, hsaves.carries, fun _ _ hop => (by cases hop), hsaves.bound⟩
  | bindConnectorMetadata metadata =>
      obtain ⟨f, rfl, h, hsaves⟩ := h
      refine .of_eq rfl ⟨f, rfl, h, hsaves.carries, hsaves.staged, ?_⟩
      rintro _ ⟨⟩
      exact hop
  | clearConnectorMetadata =>
      obtain ⟨f, rfl, h, hsaves⟩ := h
      exact .of_eq rfl ⟨f, rfl, h, hsaves.carries, hsaves.staged, fun _ hm => by cases hm⟩
  | startLoadKv clock => exact (startLoadKv_alike hst h clock).map _ fun hnext => hnext
  | waitForSave clock => exact (waitForSave_alike hst h clock).map _ fun hnext => hnext

/-- One adapter beside another: related engines and the same paged buffer. -/
def SameAdapter (id : String → Prop) (obj : KVPayload → Prop) (R : σ → τ → Prop)
    (a : SGLangExplicitCache σ) (b : SGLangExplicitCache τ) : Prop :=
  SameEngine id R a.engine b.engine ∧ a.transfer = b.transfer ∧
    ∀ t, a.transfer = some t → Carries obj t

variable {a : SGLangExplicitCache σ} {b : SGLangExplicitCache τ}

/-- What `retrieve` makes of the chunks that it has read. -/
def filled (t : DictKVTransfer) (result : LookupResult) (blockIds : List Int)
    (read : Except Raised (List KVPayload) × ExplicitKVCache σ) :
    Except Raised Nat × SGLangExplicitCache σ :=
  match read.1 with
  | .error err => (.error err, ⟨read.2, some t⟩)
  | .ok payloads =>
      let written := t.loadInto blockIds payloads
      (written.1.map fun _ => result.numTokens, ⟨read.2, some written.2⟩)

theorem store_eq (t : DictKVTransfer) (e : ExplicitKVCache σ) (cid : String)
    (tokenIds blockIds : List Int) (ttl : Option Ttl) (pin : Bool) (name : Option String)
    (clock : Time) :
    SGLangExplicitCache.store blake2b ⟨e, some t⟩ cid tokenIds blockIds ttl pin name clock =
      match t.saveFrom blockIds (ceilDiv tokenIds.length e.chunkSize).toNat with
      | .error err => (.error err, ⟨e, some t⟩)
      | .ok payloads =>
          let out := saved blake2b pin (chunksOf cid payloads)
            { cacheId := cid, tokenIds := tokenIds, numLayers := t.numLayers, ttl := ttl,
              pin := pin, name := name } clock e
          (out.1.map fun _ => (), ⟨out.2, some t⟩) := by
  simp only [SGLangExplicitCache.store, saved, chunksOf, ceilDiv]
  cases t.saveFrom blockIds (-(-(tokenIds.length : Int)).fdiv e.chunkSize).toNat with
  | error err => rfl
  | ok payloads =>
      simp only
      cases (putChunks pin (payloads.zipIdx.map fun chunk =>
        ((⟨cid, chunk.2, 0⟩, chunk.1) : ChunkKey × KVPayload)) e.store).1 <;> rfl

theorem store_alike (hst : StandsForIds σ τ ends id obj R) (h : SameAdapter id obj R a b)
    {cid : String} (hid : id cid) (tokenIds blockIds : List Int) (ttl : Option Ttl) (pin : Bool)
    (name : Option String) (clock : Time) :
    EndAlike ends (SameAdapter id obj R)
      (a.store blake2b cid tokenIds blockIds ttl pin name clock)
      (b.store blake2b cid tokenIds blockIds ttl pin name clock) := by
  obtain ⟨e, transfer⟩ := a
  obtain ⟨f, transfer'⟩ := b
  obtain ⟨hengine, rfl, hcarries⟩ := h
  cases transfer with
  | none => exact .of_eq rfl ⟨hengine, rfl, hcarries⟩
  | some t =>
      have ht := hcarries t rfl
      rw [store_eq, store_eq, ← hengine.chunkSize]
      cases hsaved : t.saveFrom blockIds (ceilDiv tokenIds.length e.chunkSize).toNat with
      | error err => exact .of_eq rfl ⟨hengine, rfl, hcarries⟩
      | ok payloads =>
          apply (saved_alike hst hengine pin (admitted_puts hid (ht.saveFrom hsaved)) hid
            clock).map
          exact fun hnext => ⟨hnext, rfl, hcarries⟩

theorem fill_alike (hst : StandsForIds σ τ ends id obj R) {e : ExplicitKVCache σ}
    {f : ExplicitKVCache τ} (h : SameEngine id R e f) {t : DictKVTransfer}
    (hcarries : ∀ t', some t = some t' → Carries obj t') (cid : String) (result : LookupResult)
    (blockIds : List Int) (clock : Time) :
    EndAlike ends (SameAdapter id obj R)
      (filled t result blockIds (e.load cid (some result.numChunks) 0 clock))
      (filled t result blockIds (f.load cid (some result.numChunks) 0 clock)) := by
  have hload := load_alike hst h cid (some result.numChunks) 0 clock
  generalize e.load cid (some result.numChunks) 0 clock = out at hload ⊢
  generalize f.load cid (some result.numChunks) 0 clock = out' at hload ⊢
  obtain ⟨read, e⟩ := out
  obtain ⟨read', f⟩ := out'
  rcases hload with ⟨err, rfl, hends⟩ | ⟨rfl, hload⟩
  · exact .inl ⟨err, rfl, hends⟩
  · cases read with
    | error err => exact .of_eq rfl ⟨hload, rfl, hcarries⟩
    | ok payloads =>
        refine .of_eq rfl ⟨hload, rfl, ?_⟩
        rintro _ ⟨⟩
        exact (hcarries t rfl).loadInto blockIds payloads

omit [StorageBackend σ] [StorageBackend τ] in
theorem sameConnector_withBeside {f : ExplicitKVCache τ} (hsaves : Saves id obj c)
    (h : SameAdapter id obj R a b) :
    SameConnector id obj R (withBeside c a) (withBeside (onEngine c f) b) := by
  obtain ⟨hengine, htransfer, hcarries⟩ := h
  refine ⟨b.engine, ?_, hengine, hcarries, hsaves.staged, hsaves.bound⟩
  simp only [withBeside, onEngine, htransfer]

theorem retrieve_alike (hst : StandsForIds σ τ ends id obj R) (h : SameAdapter id obj R a b)
    (cid : String) (blockIds : List Int) (requestTokens : Option (List Int))
    (clock clock' stamp clock'' : Time) :
    EndAlike ends (SameAdapter id obj R)
      (a.retrieve blake2b cid blockIds requestTokens clock clock' stamp clock'')
      (b.retrieve blake2b cid blockIds requestTokens clock clock' stamp clock'') := by
  obtain ⟨e, transfer⟩ := a
  obtain ⟨f, transfer'⟩ := b
  obtain ⟨hengine, rfl, hcarries⟩ := h
  cases transfer with
  | none => exact .of_eq rfl ⟨hengine, rfl, hcarries⟩
  | some t =>
      obtain ⟨hsame, hfound⟩ := exists_alike hst hengine cid clock
      unfold SGLangExplicitCache.retrieve
      simp only at hsame hfound ⊢
      generalize e.exists' cid clock = found at hsame hfound ⊢
      generalize f.exists' cid clock = found' at hsame hfound ⊢
      obtain ⟨b, e⟩ := found
      obtain ⟨b', f⟩ := found'
      obtain rfl : b = b' := hsame
      cases b with
      | false => exact .of_eq rfl ⟨hfound, rfl, hcarries⟩
      | true =>
          have hlooked : EndAlike ends (SameEngine id R)
              (ExplicitKVCache.lookup blake2b e cid requestTokens clock' stamp)
              (ExplicitKVCache.lookup blake2b f cid requestTokens clock' stamp) :=
            lookup_alike hst hfound cid requestTokens clock' stamp
          simp only [Bool.not_true, Bool.false_eq_true, if_false]
          generalize ExplicitKVCache.lookup blake2b e cid requestTokens clock' stamp = out
            at hlooked ⊢
          generalize ExplicitKVCache.lookup blake2b f cid requestTokens clock' stamp = out'
            at hlooked ⊢
          obtain ⟨result, e⟩ := out
          obtain ⟨result', f⟩ := out'
          rcases hlooked with ⟨err, rfl, hends⟩ | ⟨rfl, hlooked⟩
          · exact .inl ⟨err, rfl, hends⟩
          · cases result with
            | error err => exact .of_eq rfl ⟨hlooked, rfl, hcarries⟩
            | ok result => exact fill_alike hst hlooked hcarries cid result blockIds clock''

/-! ## Runs -/

theorem adapters_alike (hst : StandsForIds σ τ ends id obj R) (h : SameConnector id obj R c d)
    {op : AdapterOp} (hop : Admits id obj op) :
    EndAlike ends (SameConnector id obj R) ((adapters blake2b σ).step c op)
      ((adapters blake2b τ).step d op) := by
  cases op with
  | vllm op => exact (vllm_alike hst h hop).map _ fun hnext => hnext
  | store cid tokenIds blockIds ttl pin name clock =>
      obtain ⟨f, rfl, h, hsaves⟩ := h
      have hbeside : SameAdapter id obj R (beside c) (beside (onEngine c f)) :=
        ⟨h, rfl, hsaves.carries⟩
      apply (store_alike hst hbeside hop tokenIds blockIds ttl pin name clock).map
      exact fun hnext => sameConnector_withBeside hsaves hnext
  | retrieve cid blockIds requestTokens clock clock' stamp clock'' =>
      obtain ⟨f, rfl, h, hsaves⟩ := h
      have hbeside : SameAdapter id obj R (beside c) (beside (onEngine c f)) :=
        ⟨h, rfl, hsaves.carries⟩
      apply (retrieve_alike hst hbeside cid blockIds requestTokens clock clock' stamp clock'').map
      exact fun hnext => sameConnector_withBeside hsaves hnext

end Adapters

end LlmCache.Connectors.Simulation
